import Quals2017.Reeses.Meb.Format
import Quals2017.Reeses.Server.Cpu
import Quals2017.Reeses.Server.MmuFlat

/-!
# The MEB loader (`reeses_revenge/server/mebloader.cpp`)

`loadFile` is `LoadFile` (`mebloader.cpp:92-189`): the checks of the file (`checkFile`), the MMU, a
loop over the load sections (`lsecLoop`), the CPU, and a loop over the register sections
(`rsecLoop`). It logs which bytes of the buffer are read. The signature check is a parameter.

Offsets and sizes are 32-bit numbers; `posOffset` and `fileOffset+fileSize` wrap, and the sums with
a `sizeof` do not.

* `copied_eq_min`: `WriteMemory` takes no more of a payload than lands in the 192 KB of the guest.
* `lsecLoop_inside`: what the loop over the load sections reads lies inside the buffer exactly when
  every payload does that is reached. The records do, since the offset of one cannot wrap when the
  record before was inside the file.
* **`loadFile_inside_iff`**: so does everything `loadFile` reads.
* `wrapped_payload`: a payload outside the buffer that passes the tests.
-/

namespace Quals2017.Reeses.Meb

open Quals2017.Lib Quals2017.Lib.Stretch Quals2017.Reeses.Server

/-- A read of the buffer. -/
structure Access where
  offset : Nat
  size : Nat
  deriving DecidableEq, Repr

/-- Every byte of it lies inside a buffer of the given size. -/
def Access.Inside (a : Access) (dataSize : Nat) : Prop :=
  ∀ x, a.offset ≤ x → x < a.offset + a.size → x < dataSize

/-- What `LoadFile` has read and what it returns, the text it has put in `sErrorText`, and the
loader. -/
structure Loaded (σ : Type) where
  accesses : List Access
  ok : Bool
  sErrorText : Option String
  loader : Cpu σ

variable {σ : Type}

namespace Loaded

/-- What has been read before. -/
def after (accesses : List Access) (r : Loaded σ) : Loaded σ :=
  { r with accesses := accesses ++ r.accesses }

/-- Go on, if nothing has failed. -/
def andThen (r : Loaded σ) (next : Cpu σ → Loaded σ) : Loaded σ :=
  if r.ok then (next r.loader).after r.accesses else r

end Loaded

/-- `return false`. -/
def fail (sErrorText : String) (s : Cpu σ) : Loaded σ := ⟨[], false, some sErrorText, s⟩

/-- `return true`, or the end of a loop. -/
def done (s : Cpu σ) : Loaded σ := ⟨[], true, none, s⟩

/-- `CMebLoader()`: the table of the MMU is empty and the CPU reset. What the constructors leave
alone is that of a given loader. -/
def construct (garbage : Cpu σ) : Cpu σ :=
  garbage.reset.setMmu Mmu.new

section Load

variable (pData : Nat → UInt8) (dataSize : Nat)

/-- The loop over the load sections at record `i`, with the given number of rounds left. -/
def lsecLoop (lsecOffset : Nat) : Nat → Nat → Cpu σ → Option (Loaded σ)
  | 0, _, s => some (done s)
  | n + 1, i, s =>
    let posOffset := (lsecOffset + sizeofLSec * i) % 2 ^ 32
    if posOffset + sizeofLSec > dataSize then
      some (fail "Invalid file format. Offset out of range." s)
    else
      let record : Access := ⟨lsecOffset + sizeofLSec * i, sizeofLSec⟩
      let oSec := LSec.read pData record.offset
      if (oSec.fileOffset + oSec.fileSize) % 2 ^ 32 > dataSize then
        some ((fail "Invalid file format. LSec data offset out of range." s).after [record])
      else
        let payload : Access := ⟨oSec.fileOffset, s.core.mmu.copied oSec.startAddr oSec.fileSize⟩
        match s.core.mmu.writeMemory oSec.startAddr
            (stretch pData oSec.fileOffset oSec.fileSize) with
        | none => none
        | some (_, mmu) =>
          (lsecLoop lsecOffset n (i + 1) (s.setMmu mmu)).map (Loaded.after [record, payload])

/-- The loop over the register sections at record `i`, with the given number of rounds left. -/
def rsecLoop (rsecOffset : Nat) : Nat → Nat → Cpu σ → Loaded σ
  | 0, _, s => done s
  | n + 1, i, s =>
    let posOffset := (rsecOffset + sizeofRSec * i) % 2 ^ 32
    if posOffset + sizeofRSec > dataSize then fail "Invalid file format. Offset out of range." s
    else
      let oSec := RSec.read pData posOffset
      (rsecLoop rsecOffset n (i + 1) (s.setRegisterAndPC oSec.regNum oSec.regValue).2).after
        [⟨posOffset, sizeofRSec⟩]

variable (rsaVerify : List UInt8 → List UInt8 → Bool)

/-- `LoadFile` up to the signature: what it reads, and why it fails. -/
def checkFile : List Access × Option String :=
  if dataSize < sizeofHdr then ([], some "Invalid file format. File too small.")
  else
    let header : Access := ⟨0, sizeofHdr⟩
    let oHeader := Hdr.read pData 0
    if oHeader.lsecNum > 100 ∨ oHeader.rsecNum > 33 then
      ([header], some "Invalid file format. File contains too many sections.")
    else
      let totalHeaderSize :=
        sizeofHdr + sizeofLSec * oHeader.lsecNum + sizeofRSec * oHeader.rsecNum + sizeofSig
      if dataSize < totalHeaderSize then
        ([header], some "Invalid file format. File too small.")
      else if dataSize ≠ oHeader.sigOffset + sizeofSig then
        ([header], some "Invalid file format. File incorrect size.")
      else
        let accesses := [header, ⟨oHeader.sigOffset, sizeofSig⟩, ⟨0, oHeader.sigOffset⟩]
        let oSig := stretch pData oHeader.sigOffset sizeofSig
        if rsaVerify (stretch pData 0 oHeader.sigOffset) oSig then (accesses, none)
        else (accesses, some "Invalid file format. Signature failed.")

/-- `LoadFile`. -/
def loadFile (s : Cpu σ) : Option (Loaded σ) :=
  match checkFile pData dataSize rsaVerify with
  | (accesses, some sErrorText) => some ((fail sErrorText s).after accesses)
  | (accesses, none) => do
    let oHeader := Hdr.read pData 0
    let mmu := (s.core.mmu.setup 0x400000 0x430000).2
    let r ← lsecLoop pData dataSize oHeader.lsecOffset oHeader.lsecNum 0 (s.setMmu mmu)
    let r := r.andThen fun s =>
      rsecLoop pData dataSize oHeader.rsecOffset oHeader.rsecNum 0 (s.setup false 0)
    some (r.after accesses)

end Load

/-! ## The memory while sections are loaded -/

/-- The 192 KB of the guest are there, and the CPU is not set up yet. -/
structure Ready (m : Mmu) : Prop where
  base : m.baseAddress = mmuBaseAddress
  notSetUp : m.cpuSetUp = false
  dom : ∀ x, m.flat.dom x = decide (0x400000 ≤ x ∧ x < 0x430000)

theorem ready_setup {m : Mmu} (hm : m = Mmu.new) : Ready (m.setup 0x400000 0x430000).2 ∧
    (m.setup 0x400000 0x430000).2.flat.byte = fun _ => 0 := by
  subst hm
  obtain ⟨-, hbase, hflat⟩ :=
    Mmu.setup_flat (by decide : mmuBaseAddress < 0x430000) (by decide)
  refine ⟨⟨hbase, rfl, fun x => ?_⟩, congrArg FlatMem.byte hflat⟩
  exact congrFun (congrArg FlatMem.dom hflat) x

theorem Ready.not_runsPast {m : Mmu} (h : Ready m) (a n : Nat) : ¬ m.RunsPast a n := by
  rintro ⟨hset, -⟩
  rw [h.notSetUp] at hset
  exact absurd hset (by decide)

/-- **A payload is copied** as far as it lands in the memory of the guest. -/
theorem copied_eq_min {m : Mmu} (h : Ready m) (a n : Nat) : m.copied a n =
    if 0x400000 ≤ a ∧ a < 0x430000 then min n (0x430000 - a) else 0 := by
  rw [Mmu.copied_eq h.base (h.not_runsPast a n), FlatMem.extent_interval h.dom]

theorem Ready.write {m : Mmu} (h : Ready m) (a : Nat) (data : List UInt8) :
    ∃ ok m', m.writeMemory a data = some (ok, m') ∧ Ready m' ∧ m'.flat = m.flat.write a data := by
  obtain ⟨ok, m', hw, hbase, hset, hflat, -⟩ :=
    Mmu.writeMemory_flat h.base (h.not_runsPast a data.length)
  refine ⟨ok, m', hw, ⟨hbase, hset.trans h.notSetUp, fun x => ?_⟩, hflat⟩
  rw [hflat, FlatMem.write_dom, h.dom]

/-! ## What is read -/

theorem Access.inside_iff {a : Access} {dataSize : Nat} :
    a.Inside dataSize ↔ a.size = 0 ∨ a.offset + a.size ≤ dataSize := by
  unfold Inside
  constructor
  · intro h
    by_contra hne
    have := h (a.offset + a.size - 1) (by omega) (by omega)
    omega
  · rintro h x h₁ h₂
    omega

section Inside

variable {pData : Nat → UInt8} {dataSize : Nat}

/-- Record `i` passes the two tests of the loop. -/
def Passes (pData : Nat → UInt8) (dataSize lsecOffset i : Nat) : Prop :=
  let oSec := LSec.read pData (lsecOffset + sizeofLSec * i)
  (lsecOffset + sizeofLSec * i) % 2 ^ 32 + sizeofLSec ≤ dataSize ∧
    (oSec.fileOffset + oSec.fileSize) % 2 ^ 32 ≤ dataSize

/-- The part of a payload that lands in the memory of the guest lies inside the file. -/
def LSec.PayloadFits (dataSize : Nat) (s : LSec) : Prop :=
  0x400000 ≤ s.startAddr → s.startAddr < 0x430000 →
    s.fileOffset + min s.fileSize (0x430000 - s.startAddr) ≤ dataSize

/-- The payloads of the records `[i, i + n)` fit, as far as every record before passes. -/
def PayloadsFit (pData : Nat → UInt8) (dataSize lsecOffset i n : Nat) : Prop :=
  ∀ k, i ≤ k → k < i + n → (∀ j, i ≤ j → j ≤ k → Passes pData dataSize lsecOffset j) →
    (LSec.read pData (lsecOffset + sizeofLSec * k)).PayloadFits dataSize

theorem payloadsFit_succ {lsecOffset i n : Nat} (h : Passes pData dataSize lsecOffset i) :
    PayloadsFit pData dataSize lsecOffset i (n + 1) ↔
      (LSec.read pData (lsecOffset + sizeofLSec * i)).PayloadFits dataSize ∧
        PayloadsFit pData dataSize lsecOffset (i + 1) n := by
  constructor
  · intro hfit
    refine ⟨hfit i (Nat.le_refl i) (by omega) fun j h₁ h₂ => ?_, fun k h₁ h₂ hk => ?_⟩
    · obtain rfl : j = i := Nat.le_antisymm h₂ h₁
      exact h
    · refine hfit k (by omega) (by omega) fun j h₃ h₄ => ?_
      by_cases hj : j = i
      · rw [hj]
        exact h
      · exact hk j (by omega) h₄
  · rintro ⟨hi, hfit⟩ k h₁ h₂ hk
    by_cases hki : k = i
    · rw [hki]
      exact hi
    · exact hfit k (by omega) (by omega) fun j h₃ h₄ => hk j (by omega) h₄

/-- Where a record fails, nothing is asked of the payloads. -/
theorem payloadsFit_of_fails {lsecOffset i : Nat} (n : Nat)
    (h : ¬ Passes pData dataSize lsecOffset i) : PayloadsFit pData dataSize lsecOffset i n :=
  fun _ h₁ _ hk => absurd (hk i (Nat.le_refl i) h₁) h

/-- **One payload.** -/
theorem payload_inside_iff {m : Mmu} (hm : Ready m) {s : LSec} (hfits : s.Fits)
    (hpass : (s.fileOffset + s.fileSize) % 2 ^ 32 ≤ dataSize) :
    (⟨s.fileOffset, m.copied s.startAddr s.fileSize⟩ : Access).Inside dataSize ↔
      s.PayloadFits dataSize := by
  have hoffset := hfits.fileOffset
  rw [Access.inside_iff, copied_eq_min hm]
  unfold LSec.PayloadFits
  split_ifs with hwin <;> simp only
  · exact ⟨fun h _ _ => by omega, fun h => .inr (h hwin.1 hwin.2)⟩
  · exact ⟨fun _ h₁ h₂ => absurd ⟨h₁, h₂⟩ hwin, fun _ => .inl trivial⟩

/-- **The loop over the load sections** is never undefined, and reads inside the buffer exactly when
the payloads it reaches fit. -/
theorem lsecLoop_inside (pData : Nat → UInt8) (hsize : dataSize < 2 ^ 32) {lsecOffset : Nat} :
    ∀ (n i : Nat) {s : Cpu σ}, Ready s.core.mmu → lsecOffset + sizeofLSec * i < 2 ^ 32 →
    ∃ r, lsecLoop pData dataSize lsecOffset n i s = some r ∧
      ((∀ a ∈ r.accesses, a.Inside dataSize) ↔ PayloadsFit pData dataSize lsecOffset i n)
  | 0, i, s, _, _ => by
    refine ⟨done s, rfl, ?_⟩
    simp [done, PayloadsFit]
    omega
  | n + 1, i, s, hs, hi => by
    rw [lsecLoop]
    simp only
    by_cases h₁ : (lsecOffset + sizeofLSec * i) % 2 ^ 32 + sizeofLSec > dataSize
    · refine ⟨_, if_pos h₁, ?_⟩
      have hfit : PayloadsFit pData dataSize lsecOffset i (n + 1) :=
        payloadsFit_of_fails _ fun h => Nat.not_le.mpr h₁ h.1
      simp [fail, hfit]
    rw [if_neg h₁]
    have hrecord : (⟨lsecOffset + sizeofLSec * i, sizeofLSec⟩ : Access).Inside dataSize := by
      rw [Nat.mod_eq_of_lt hi] at h₁
      exact Access.inside_iff.mpr (.inr (by simp only; omega))
    have hfits := LSec.read_fits pData (lsecOffset + sizeofLSec * i)
    generalize hsec : LSec.read pData (lsecOffset + sizeofLSec * i) = oSec at *
    by_cases h₂ : (oSec.fileOffset + oSec.fileSize) % 2 ^ 32 > dataSize
    · refine ⟨_, if_pos h₂, ?_⟩
      have hfit : PayloadsFit pData dataSize lsecOffset i (n + 1) :=
        payloadsFit_of_fails _ fun h => Nat.not_le.mpr h₂ (hsec ▸ h.2)
      simp [Loaded.after, fail, hfit, hrecord]
    rw [if_neg h₂]
    obtain ⟨ok, mmu, hw, hready, -⟩ :=
      hs.write oSec.startAddr (stretch pData oSec.fileOffset oSec.fileSize)
    have hnext : lsecOffset + sizeofLSec * (i + 1) < 2 ^ 32 := by
      rw [Nat.mod_eq_of_lt hi] at h₁
      rw [Nat.mul_succ]
      omega
    obtain ⟨r, hr, hiff⟩ := lsecLoop_inside pData hsize n (i + 1) (s := s.setMmu mmu) hready hnext
    rw [hw]
    simp only
    rw [hr]
    refine ⟨_, rfl, ?_⟩
    have hpass : Passes pData dataSize lsecOffset i := ⟨by omega, by rw [hsec]; omega⟩
    rw [payloadsFit_succ hpass, hsec, ← payload_inside_iff hs hfits (by omega), ← hiff]
    simp [Loaded.after, hrecord]

/-- **The loop over the register sections** reads inside the buffer. -/
theorem rsecLoop_inside {rsecOffset : Nat} : ∀ (n i : Nat) {s : Cpu σ},
    ∀ a ∈ (rsecLoop pData dataSize rsecOffset n i s).accesses, a.Inside dataSize
  | 0, _, _ => fun _ h => nomatch h
  | n + 1, i, s => by
    rw [rsecLoop]
    simp only
    by_cases h₁ : (rsecOffset + sizeofRSec * i) % 2 ^ 32 + sizeofRSec > dataSize
    · rw [if_pos h₁]
      exact fun _ h => nomatch h
    · rw [if_neg h₁]
      intro a ha
      rcases List.mem_append.mp ha with hrecord | hrest
      · rw [List.mem_singleton.mp hrecord]
        exact Access.inside_iff.mpr (.inr (by simp only; omega))
      · exact rsecLoop_inside n (i + 1) a hrest

/-- **The checks of the file** read inside the buffer. -/
theorem checkFile_inside (pData : Nat → UInt8) (dataSize : Nat)
    (rsaVerify : List UInt8 → List UInt8 → Bool) :
    ∀ a ∈ (checkFile pData dataSize rsaVerify).1, a.Inside dataSize := by
  unfold checkFile
  simp only
  split_ifs with h₁ h₂ h₃ h₄ h₅
  all_goals
    simp only [List.mem_cons, List.not_mem_nil, or_false, forall_eq_or_imp, forall_eq,
      Access.inside_iff, false_implies, implies_true]
  all_goals omega

/-- `LoadFile` is never undefined. -/
theorem loadFile_total (rsaVerify : List UInt8 → List UInt8 → Bool) (pData : Nat → UInt8)
    (dataSize : UInt32) (garbage : Cpu σ) :
    ∃ r, loadFile pData dataSize.toNat rsaVerify (construct garbage) = some r := by
  unfold loadFile
  generalize checkFile pData dataSize.toNat rsaVerify = checked
  obtain ⟨accesses, _ | text⟩ := checked
  · have hoffset : (Hdr.read pData 0).lsecOffset + sizeofLSec * 0 < 2 ^ 32 := field_lt pData 12 4
    obtain ⟨r, hr, -⟩ := lsecLoop_inside pData dataSize.toNat_lt (Hdr.read pData 0).lsecNum 0
      (s := (construct garbage).setMmu ((construct garbage).core.mmu.setup 0x400000 0x430000).2)
      (ready_setup (m := (construct garbage).core.mmu) rfl).1 hoffset
    simp only [Option.bind_eq_bind, hr, Option.bind_some]
    exact ⟨_, rfl⟩
  · exact ⟨_, rfl⟩

/-- **`LoadFile` reads inside the buffer** exactly when the payloads it reaches fit. -/
theorem loadFile_inside_iff (rsaVerify : List UInt8 → List UInt8 → Bool) (pData : Nat → UInt8)
    (dataSize : UInt32) (garbage : Cpu σ) :
    ∃ r, loadFile pData dataSize.toNat rsaVerify (construct garbage) = some r ∧
      ((∀ a ∈ r.accesses, a.Inside dataSize.toNat) ↔
        ((checkFile pData dataSize.toNat rsaVerify).2 = none →
          PayloadsFit pData dataSize.toNat (Hdr.read pData 0).lsecOffset 0
            (Hdr.read pData 0).lsecNum)) := by
  have hcheck := checkFile_inside pData dataSize.toNat rsaVerify
  have hsetup := (ready_setup (m := (construct garbage).core.mmu) rfl).1
  unfold loadFile
  generalize checkFile pData dataSize.toNat rsaVerify = checked at hcheck
  obtain ⟨accesses, sErrorText⟩ := checked
  cases sErrorText with
  | some text => exact ⟨_, rfl, by simpa [Loaded.after, fail] using hcheck⟩
  | none =>
    generalize (construct garbage).core.mmu.setup 0x400000 0x430000 = mmu at hsetup
    have hoffset : (Hdr.read pData 0).lsecOffset + sizeofLSec * 0 < 2 ^ 32 := field_lt pData 12 4
    obtain ⟨r, hr, hiff⟩ := lsecLoop_inside pData dataSize.toNat_lt (Hdr.read pData 0).lsecNum 0
      (s := (construct garbage).setMmu mmu.2) hsetup hoffset
    simp only [Option.bind_eq_bind, hr, Option.bind_some]
    refine ⟨_, rfl, ?_⟩
    rw [forall_const, ← hiff]
    unfold Loaded.andThen
    by_cases hok : r.ok = true
    · simp only [if_pos hok, Loaded.after, List.forall_mem_append]
      exact ⟨fun h => h.2.1, fun h => ⟨hcheck, h, rsecLoop_inside _ _⟩⟩
    · simp only [if_neg hok, Loaded.after, List.forall_mem_append]
      exact ⟨fun h => h.2, fun h => ⟨hcheck, h⟩⟩

/-- A file with one load section, of two bytes at offset `0xFFFFFFFF`. -/
def wrappedFile : List UInt8 :=
  Hdr.bytes ⟨[0x41, 0x4A, 0x5C, 0x62], 1, 0, 32, 52, 1, 0, 52, 0⟩ ++
    LSec.bytes ⟨0x400000, 2, 2, 0xFFFFFFFF, 0⟩ ++ List.replicate 256 0

/-- `0xFFFFFFFF + 2` wraps to 1, which passes the test. -/
theorem wrapped_payload : ¬ ∀ (σ : Type) (rsaVerify : List UInt8 → List UInt8 → Bool)
    (pData : Nat → UInt8) (dataSize : UInt32) (garbage : Cpu σ),
    ∃ r, loadFile pData dataSize.toNat rsaVerify (construct garbage) = some r ∧
      ∀ a ∈ r.accesses, a.Inside dataSize.toNat := by
  intro hall
  obtain ⟨r, hr, hinside⟩ := hall Unit (fun _ _ => true) (fun i => wrappedFile.getD i 0) 308
    ⟨⟨fun _ => 0, 0, 0, false, 0, fun _ => 0, ⟨Mmu.new, []⟩, ⟨fun _ => 0, 0⟩, ()⟩, 0, 0, .normal, 0⟩
  have haccesses := congrArg (Option.map Loaded.accesses) hr
  have hread : some [⟨0, 32⟩, ⟨52, 256⟩, ⟨0, 52⟩, ⟨32, 20⟩, ⟨0xFFFFFFFF, 2⟩] =
      some r.accesses := haccesses
  have hlast := hinside ⟨0xFFFFFFFF, 2⟩ (by rw [← Option.some.inj hread]; simp)
  exact absurd (hlast 0xFFFFFFFF (by decide) (by decide)) (by decide)

end Inside

end Quals2017.Reeses.Meb
