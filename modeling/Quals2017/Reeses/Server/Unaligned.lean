import Quals2017.Lib.Masks
import Quals2017.Reeses.Server.Cpu
import Quals2017.Reeses.Server.MmuFlat

/-!
# Unaligned words (`reeses_revenge/server/cpu.cpp:606-694`, `:770-792`, `:839-917`, `:943-967`)

A pair of `lwr` and `lwl`, or of `swr` and `swl`, is meant to move a word that need not be aligned.
All results are about the little-endian machine, on addresses whose words are mapped.

* `lwr_toNat` and `lwl_toNat`: what the masks come to, as numbers.
* **`lwr_lwl`**: the loads move the word, in either order.
* `swrEmulate_covers` and `swlEmulate_covers`: the stores do not. `swr` reads and writes the word at
  the address itself, shifted up by its offset, and `swl` stores the lowest byte of what it has
  merged.
* **`swr_swl_iff`**: so the word is stored only where the bytes of the register and the memory agree
  (`SwrFirst`, `SwlFirst`). `swr_swl_second`: a store that goes wrong.
-/

namespace Quals2017.Reeses.Server

open Quals2017.Lib Quals2017.Lib.Stretch Quals2017.Lib.LittleEndian Quals2017.Lib.Masks

variable {σ : Type}

/-! ## Mapped memory -/

/-- The word in the bytes from an address on. -/
def wordAt (f : FlatMem UInt8) (a : Nat) : Word := BitVec.ofNat 32 (leVal (stretch f.byte a 4))

theorem wordAt_toNat (f : FlatMem UInt8) (a : Nat) : (wordAt f a).toNat =
    (f.byte a).toNat + 256 * ((f.byte (a + 1)).toNat +
      256 * ((f.byte (a + 2)).toNat + 256 * (f.byte (a + 3)).toNat)) := by
  have hlt : leVal (stretch f.byte a 4) < 2 ^ 32 := by
    have h := leVal_lt (stretch f.byte a 4)
    rw [stretch_length] at h
    exact Nat.lt_of_lt_of_le h (by decide)
  rw [wordAt, BitVec.toNat_ofNat, Nat.mod_eq_of_lt hlt]
  rfl

theorem Mmu.not_runsPast_of_covers {m : Mmu} (hbase : m.baseAddress = mmuBaseAddress) {a n : Nat}
    (h : m.flat.Covers a n) : ¬ m.RunsPast a n := by
  rintro ⟨-, hn, -, hend, -⟩
  have hlast : (m.page? (a + (n - 1))).isSome = true := h (n - 1) (by omega)
  rw [Mmu.page?_none hbase (.inr (by omega))] at hlast
  exact absurd hlast (by decide)

/-- What is mapped lies below the end of the table. -/
theorem Mmu.lt_of_dom {m : Mmu} (hbase : m.baseAddress = mmuBaseAddress) {x : Nat}
    (h : m.flat.dom x = true) : x < mmuMaxAddress := by
  by_contra hge
  have hsome : (m.page? x).isSome = true := h
  rw [Mmu.page?_none hbase (.inr (by omega))] at hsome
  exact absurd hsome (by decide)

namespace Core

variable {c : Core σ} {addr : Word}

/-- The memory as a flat one. -/
def flat (c : Core σ) : FlatMem UInt8 := c.mmu.flat

theorem fetch_covers (hbase : c.mmu.baseAddress = mmuBaseAddress) {n : Nat} (hn : 0 < n)
    (h : c.flat.Covers addr.toNat n) : c.fetch addr n = .ok (stretch c.flat.byte addr.toNat n) := by
  obtain ⟨ok, hread, hok⟩ := Mmu.readMemory_flat hbase (Mmu.not_runsPast_of_covers hbase h)
  have hextent : c.mmu.flat.extent addr.toNat n = n := FlatMem.extent_eq_iff.mpr h
  rw [hok.mpr ⟨hn, h⟩, hextent] at hread
  rw [fetch, hread]
  rfl

theorem fetchWord_covers (hbase : c.mmu.baseAddress = mmuBaseAddress)
    (h : c.flat.Covers addr.toNat 4) : c.fetchWord addr = .ok (wordAt c.flat addr.toNat) := by
  rw [fetchWord, fetch_covers hbase (by decide) h]
  rfl

theorem store_covers (hbase : c.mmu.baseAddress = mmuBaseAddress) {pData : List UInt8}
    (hne : pData ≠ []) (h : c.flat.Covers addr.toNat pData.length) :
    ∃ mmu, c.store addr pData = .ok (c.setMmu mmu) ∧ mmu.baseAddress = mmuBaseAddress ∧
      mmu.flat = c.flat.write addr.toNat pData := by
  obtain ⟨ok, mmu, hwrite, hbase', -, hflat, hok⟩ :=
    Mmu.writeMemory_flat hbase (Mmu.not_runsPast_of_covers hbase h)
  rw [hok.mpr ⟨hne, h⟩] at hwrite
  refine ⟨mmu, ?_, hbase', hflat⟩
  rw [store, hwrite]
  rfl

end Core

/-- The word that contains an address is mapped. -/
def WordMapped (c : Core σ) (addr : Word) : Prop := c.flat.Covers (addr.toNat / 4 * 4) 4

theorem wordaddr_toNat (addr : Word) : (addr &&& ~~~3).toNat = addr.toNat / 4 * 4 :=
  toNat_and_high addr 2

theorem whichByte_toNat (addr : Word) : (addr.extractLsb' 0 2).toNat = addr.toNat % 4 := by
  rw [BitVec.extractLsb'_toNat, Nat.shiftRight_zero]

/-- The address of the last byte of the word. It does not wrap where the first is mapped. -/
theorem toNat_add_three {c : Core σ} {A : Word} (hbase : c.mmu.baseAddress = mmuBaseAddress)
    (h : WordMapped c A) : (A + 3).toNat = A.toNat + 3 := by
  have hlt := Mmu.lt_of_dom hbase (h 0 (by decide))
  rw [mmuMaxAddress_eq] at hlt
  have hthree : (3 : Word).toNat = 3 := rfl
  rw [BitVec.toNat_add, hthree]
  omega

/-! ## The loads -/

theorem byte_cases (o : BitVec 2) : o = 0 ∨ o = 1 ∨ o = 2 ∨ o = 3 := by
  revert o
  decide

/-! The masks of the source, by the bit they end at. -/

theorem mask_ff000000 : (0xff000000 : Word) = BitVec.allOnes 32 <<< 24 := by decide

theorem mask_ffff0000 : (0xffff0000 : Word) = BitVec.allOnes 32 <<< 16 := by decide

theorem mask_ffffff00 : (0xffffff00 : Word) = BitVec.allOnes 32 <<< 8 := by decide

theorem mask_ff : (0xff : Word) = BitVec.ofNat 32 (2 ^ 8 - 1) := by decide

theorem mask_ffff : (0xffff : Word) = BitVec.ofNat 32 (2 ^ 16 - 1) := by decide

theorem mask_ffffff : (0xffffff : Word) = BitVec.ofNat 32 (2 ^ 24 - 1) := by decide

/-- `lwr` keeps the high bits of the register. -/
theorem lwr_toNat (regval memval : Word) (o : BitVec 2) : (lwr false regval memval o).toNat =
    regval.toNat / 2 ^ (32 - 8 * o.toNat) * 2 ^ (32 - 8 * o.toNat) +
      memval.toNat / 2 ^ (8 * o.toNat) := by
  rcases byte_cases o with rfl | rfl | rfl | rfl
  · have hreg := regval.isLt
    show memval.toNat = _
    rw [show (0 : BitVec 2).toNat = 0 from rfl]
    omega
  · have h := join_shiftRight regval memval (show 8 + 24 = 32 from rfl)
    rw [← mask_ff000000, ← mask_ffffff00] at h
    exact h
  · have h := join_shiftRight regval memval (show 16 + 16 = 32 from rfl)
    rw [← mask_ffff0000] at h
    exact h
  · have h := join_shiftRight regval memval (show 24 + 8 = 32 from rfl)
    rw [← mask_ff000000, ← mask_ffffff00] at h
    exact h

/-- `lwl` keeps the low bits of the register. -/
theorem lwl_toNat (regval memval : Word) (o : BitVec 2) : (lwl false regval memval o).toNat =
    memval.toNat % 2 ^ (8 * (o.toNat + 1)) * 2 ^ (24 - 8 * o.toNat) +
      regval.toNat % 2 ^ (24 - 8 * o.toNat) := by
  rcases byte_cases o with rfl | rfl | rfl | rfl
  · have h := join_shiftLeft memval regval (show 8 + 24 = 32 from rfl)
    rw [← mask_ff, ← mask_ffffff] at h
    exact h
  · have h := join_shiftLeft memval regval (show 16 + 16 = 32 from rfl)
    rw [← mask_ffff] at h
    exact h
  · have h := join_shiftLeft memval regval (show 24 + 8 = 32 from rfl)
    rw [← mask_ff, ← mask_ffffff] at h
    exact h
  · have hmem := memval.isLt
    show memval.toNat = _
    rw [show (3 : BitVec 2).toNat = 3 from rfl]
    omega

/-- The four places of an address in its word, with the word of the address three above. -/
theorem place_cases (a : Nat) : ∃ b, a / 4 * 4 = b ∧
    ((a = b ∧ a % 4 = 0 ∧ (a + 3) % 4 = 3 ∧ (a + 3) / 4 * 4 = b) ∨
    (a = b + 1 ∧ a % 4 = 1 ∧ (a + 3) % 4 = 0 ∧ (a + 3) / 4 * 4 = b + 4) ∨
    (a = b + 2 ∧ a % 4 = 2 ∧ (a + 3) % 4 = 1 ∧ (a + 3) / 4 * 4 = b + 4) ∨
    (a = b + 3 ∧ a % 4 = 3 ∧ (a + 3) % 4 = 2 ∧ (a + 3) / 4 * 4 = b + 4)) := by
  refine ⟨a / 4 * 4, rfl, ?_⟩
  have hplace : a % 4 = 0 ∨ a % 4 = 1 ∨ a % 4 = 2 ∨ a % 4 = 3 := by omega
  rcases hplace with h | h | h | h
  · exact Or.inl (by omega)
  · exact Or.inr (Or.inl (by omega))
  · exact Or.inr (Or.inr (Or.inl (by omega)))
  · exact Or.inr (Or.inr (Or.inr (by omega)))

/-- **The two parts make up the word**, in either order. -/
theorem parts_word (f : FlatMem UInt8) (a : Nat) (regval : Word) {o o' : BitVec 2}
    (ho : o.toNat = a % 4) (ho' : o'.toNat = (a + 3) % 4) :
    lwl false (lwr false regval (wordAt f (a / 4 * 4)) o) (wordAt f ((a + 3) / 4 * 4)) o' =
      wordAt f a ∧
    lwr false (lwl false regval (wordAt f ((a + 3) / 4 * 4)) o') (wordAt f (a / 4 * 4)) o =
      wordAt f a := by
  obtain ⟨b, hb, hplace⟩ := place_cases a
  have hbytes : ∀ k, (f.byte (b + k)).toNat < 256 := fun k => (f.byte (b + k)).toNat_lt
  have h0 := hbytes 0
  have h1 := hbytes 1
  have h2 := hbytes 2
  have h3 := hbytes 3
  have h4 := hbytes 4
  have h5 := hbytes 5
  have h6 := hbytes 6
  have h7 := hbytes 7
  have hreg := regval.isLt
  refine ⟨BitVec.eq_of_toNat_eq ?_, BitVec.eq_of_toNat_eq ?_⟩
  all_goals
    simp only [lwl_toNat, lwr_toNat, wordAt_toNat, ho, ho', hb]
    rcases hplace with ⟨h, h₁, h₂, h₃⟩ | ⟨h, h₁, h₂, h₃⟩ | ⟨h, h₁, h₂, h₃⟩ | ⟨h, h₁, h₂, h₃⟩
    all_goals
      rw [h₁, h₂, h₃, h]
      simp only [Nat.add_assoc, Nat.add_zero, Nat.reduceAdd, Nat.reduceMul, Nat.reduceSub,
        Nat.reducePow] at h0 ⊢
      omega

/-- A load of a part, from a mapped word. -/
theorem loadPart_covers {c : Core σ} {instr addr : Word} (hbase : c.mmu.baseAddress = mmuBaseAddress)
    (part : Bool → Word → Word → BitVec 2 → Word) (haddr : effectiveAddress instr c = addr)
    (hmapped : WordMapped c addr) : loadPart part instr c =
      .ok (c.setReg (rt instr) (part c.optBigendian (c.regs (rt instr))
        (wordAt c.flat (addr.toNat / 4 * 4)) (addr.extractLsb' 0 2))) := by
  have hword : c.fetchWord (addr &&& ~~~3) = .ok (wordAt c.flat (addr.toNat / 4 * 4)) := by
    rw [← wordaddr_toNat]
    refine Core.fetchWord_covers hbase ?_
    rw [wordaddr_toNat]
    exact hmapped
  rw [loadPart, haddr, hword]
  rfl

theorem setReg_setReg (reg : BitVec 5) (v v' : Word) (c : Core σ) :
    (c.setReg reg v).setReg reg v' = c.setReg reg v' := by
  unfold Core.setReg
  simp only [Function.update_idem]

/-- **`lwr` and `lwl` load the word**, in either order, and do nothing else. -/
theorem lwr_lwl (c : Core σ) (A i₁ i₂ : Word) (hle : c.optBigendian = false)
    (hbase : c.mmu.baseAddress = mmuBaseAddress) (hmapped : WordMapped c A)
    (hmapped' : WordMapped c (A + 3)) (hrt : rt i₂ = rt i₁) :
    (effectiveAddress i₁ c = A →
      (∀ c₁, lwrEmulate i₁ c = .ok c₁ → effectiveAddress i₂ c₁ = A + 3) →
      (lwrEmulate i₁ c >>= lwlEmulate i₂) = .ok (c.setReg (rt i₁) (wordAt c.flat A.toNat))) ∧
    (effectiveAddress i₂ c = A + 3 →
      (∀ c₁, lwlEmulate i₂ c = .ok c₁ → effectiveAddress i₁ c₁ = A) →
      (lwlEmulate i₂ c >>= lwrEmulate i₁) = .ok (c.setReg (rt i₁) (wordAt c.flat A.toNat))) := by
  have ho := whichByte_toNat A
  have ho' := whichByte_toNat (A + 3)
  rw [toNat_add_three hbase hmapped] at ho'
  have hword := parts_word c.flat A.toNat (c.regs (rt i₁)) ho ho'
  constructor
  · intro h₁ h₂
    have hlwr := loadPart_covers hbase lwr h₁ hmapped
    rw [hle] at hlwr
    generalize hv : lwr false _ _ _ = v at hlwr hword
    have hlwl := loadPart_covers (c := c.setReg (rt i₁) v) hbase lwl (h₂ _ hlwr) hmapped'
    rw [lwrEmulate, hlwr]
    refine hlwl.trans ?_
    rw [hrt, Core.setReg_regs_self, setReg_setReg, toNat_add_three hbase hmapped]
    have hle' : (c.setReg (rt i₁) v).optBigendian = false := hle
    rw [hle']
    exact congrArg (fun w => Except.ok (c.setReg (rt i₁) w)) hword.1
  · intro h₂ h₁
    have hlwl := loadPart_covers hbase lwl h₂ hmapped'
    rw [hle, hrt, toNat_add_three hbase hmapped] at hlwl
    generalize hv : lwl false (c.regs _) _ _ = v at hlwl hword
    have hlwr := loadPart_covers (c := c.setReg (rt i₁) v) hbase lwr (h₁ _ hlwl) hmapped
    rw [lwlEmulate, hlwl]
    refine hlwr.trans ?_
    rw [Core.setReg_regs_self, setReg_setReg]
    have hle' : (c.setReg (rt i₁) v).optBigendian = false := hle
    rw [hle']
    exact congrArg (fun w => Except.ok (c.setReg (rt i₁) w)) hword.2

/-- A core with the bytes 1 to 8 at `0x400000`, and `$ra` at the second of them. -/
def unalignedCore : Core Unit := (Cpu.boot [1, 2, 3, 4, 5, 6, 7, 8] 0x400001).core

/-- `lwr $v0, 0($ra)` and `lwl $v0, 3($ra)`. -/
theorem lwr_lwl_second :
    (lwrEmulate 0x9BE20000 unalignedCore >>= lwlEmulate 0x8BE20003) =
      .ok (unalignedCore.setReg 2 0x05040302) := by
  have hfirst : WordMapped unalignedCore 0x400001 := by
    intro k hk
    match k, hk with
    | 0, _ | 1, _ | 2, _ | 3, _ => rfl
  have hsecond : WordMapped unalignedCore (0x400001 + 3) := by
    intro k hk
    match k, hk with
    | 0, _ | 1, _ | 2, _ | 3, _ => rfl
  refine ((lwr_lwl unalignedCore 0x400001 0x9BE20000 0x8BE20003 rfl rfl hfirst hsecond (by decide)).1
    (by decide) fun c₁ h => ?_).trans (by rfl)
  have hlwr := @loadPart_covers Unit unalignedCore 0x9BE20000 0x400001 rfl lwr (by decide) hfirst
  obtain rfl := Except.ok.inj (hlwr.symm.trans h)
  rfl

/-! ## The stores -/

/-- Byte `k` of a word. -/
def byteOf (r : Word) (k : Nat) : UInt8 := UInt8.ofNat (r.toNat / 256 ^ k)

theorem swl_toNat (regval memval : Word) (o : BitVec 2) : (swl false regval memval o).toNat =
    memval.toNat / 2 ^ (8 * (o.toNat + 1)) * 2 ^ (8 * (o.toNat + 1)) +
      regval.toNat / 2 ^ (24 - 8 * o.toNat) := by
  rcases byte_cases o with rfl | rfl | rfl | rfl
  · have h := join_shiftRight_mask memval regval (show 24 + 8 = 32 from rfl)
    rw [← mask_ff, ← mask_ffffff00] at h
    exact h
  · have h := join_shiftRight_mask memval regval (show 16 + 16 = 32 from rfl)
    rw [← mask_ffff, ← mask_ffff0000] at h
    exact h
  · have h := join_shiftRight_mask memval regval (show 8 + 24 = 32 from rfl)
    rw [← mask_ff000000, ← mask_ffffff] at h
    exact h
  · have hmem := memval.isLt
    show regval.toNat = _
    rw [show (3 : BitVec 2).toNat = 3 from rfl]
    omega

theorem swr_toNat (regval memval : Word) (o : BitVec 2) : (swr false regval memval o).toNat =
    regval.toNat % 2 ^ (32 - 8 * o.toNat) * 2 ^ (8 * o.toNat) +
      memval.toNat % 2 ^ (8 * o.toNat) := by
  rcases byte_cases o with rfl | rfl | rfl | rfl
  · have hreg := regval.isLt
    show regval.toNat = _
    rw [show (0 : BitVec 2).toNat = 0 from rfl]
    omega
  · have h := join_shiftLeft_mask regval memval (show 24 + 8 = 32 from rfl)
    rw [← mask_ff, ← mask_ffffff00] at h
    exact h
  · have h := join_shiftLeft_mask regval memval (show 16 + 16 = 32 from rfl)
    rw [← mask_ffff, ← mask_ffff0000] at h
    exact h
  · have h := join_shiftLeft_mask regval memval (show 8 + 24 = 32 from rfl)
    rw [← mask_ff000000, ← mask_ffffff] at h
    exact h

/-- What `swr` stores at an address, by its place in the word, from the bytes `r` of the register
and those found at the address. -/
def swrData (place : Nat) (r m : Nat → UInt8) : List UInt8 :=
  match place with
  | 0 => [r 0, r 1, r 2, r 3]
  | 1 => [m 0, r 0, r 1, r 2]
  | 2 => [m 0, m 1, r 0, r 1]
  | _ => [m 0, m 1, m 2, r 0]

/-- What `swl` stores at the address three above, by the place of the lower one. -/
def swlByte (place : Nat) (r : Nat → UInt8) : UInt8 :=
  match place with
  | 0 => r 0
  | 1 => r 3
  | 2 => r 2
  | _ => r 1

theorem leBytes_four (v : Nat) : leBytes 4 v =
    [UInt8.ofNat v, UInt8.ofNat (v / 256), UInt8.ofNat (v / 65536), UInt8.ofNat (v / 16777216)] := by
  simp only [leBytes, Nat.div_div_eq_div_mul, Nat.reduceMul]

theorem leBytes_byteOf (r : Word) :
    leBytes 4 r.toNat = [byteOf r 0, byteOf r 1, byteOf r 2, byteOf r 3] := by
  rw [leBytes_four]
  simp only [byteOf, Nat.reducePow, Nat.div_one]

theorem ofNat_eq_iff (v : Nat) (b : UInt8) : UInt8.ofNat v = b ↔ v % 256 = b.toNat := by
  rw [← UInt8.toNat_inj, UInt8.toNat_ofNat']

/-- The bytes of what `swr` makes. -/
theorem swr_bytes (r : Word) (f : FlatMem UInt8) (a : Nat) {o : BitVec 2} (ho : o.toNat = a % 4) :
    leBytes 4 (swr false r (wordAt f a) o).toNat =
      swrData (a % 4) (byteOf r) fun k => f.byte (a + k) := by
  have hreg := r.isLt
  have h0 := (f.byte a).toNat_lt
  have h1 := (f.byte (a + 1)).toNat_lt
  have h2 := (f.byte (a + 2)).toNat_lt
  have h3 := (f.byte (a + 3)).toNat_lt
  rw [leBytes_four, swr_toNat, wordAt_toNat, ho]
  obtain ⟨b, -, hplace⟩ := place_cases a
  rcases hplace with ⟨-, h, -⟩ | ⟨-, h, -⟩ | ⟨-, h, -⟩ | ⟨-, h, -⟩
  all_goals
    rw [h]
    simp only [swrData, List.cons.injEq, and_true, ofNat_eq_iff, byteOf, UInt8.toNat_ofNat',
      Nat.add_zero, Nat.reducePow, Nat.reduceMul, Nat.reduceSub, Nat.div_one]
    omega

/-- The lowest byte of what `swl` makes. -/
theorem swl_byte (r : Word) (memval : Word) (a : Nat) {o : BitVec 2} (ho : o.toNat = (a + 3) % 4) :
    leBytes 1 ((swl false r memval o).setWidth 8).toNat = [swlByte (a % 4) (byteOf r)] := by
  have hreg := r.isLt
  rw [BitVec.toNat_setWidth, swl_toNat, ho]
  obtain ⟨b, -, hplace⟩ := place_cases a
  rcases hplace with ⟨-, h, h', -⟩ | ⟨-, h, h', -⟩ | ⟨-, h, h', -⟩ | ⟨-, h, h', -⟩
  all_goals
    rw [h, h']
    simp only [leBytes, swlByte, List.cons.injEq, and_true, ofNat_eq_iff, byteOf,
      UInt8.toNat_ofNat', Nat.reduceAdd, Nat.reducePow, Nat.reduceMul, Nat.reduceSub, Nat.div_one]
    omega

theorem swrData_length (place : Nat) (r m : Nat → UInt8) : (swrData place r m).length = 4 := by
  unfold swrData
  split <;> rfl

/-- The bytes of an address are those of its word, and of the one behind. -/
theorem covers_of_mapped {c : Core σ} {A : Word} (hA : (A + 3).toNat = A.toNat + 3)
    (h : WordMapped c A) (h' : WordMapped c (A + 3)) : c.flat.Covers A.toNat 4 := by
  intro k hk
  obtain ⟨b, hb, hplace⟩ := place_cases A.toNat
  unfold WordMapped at h h'
  rw [hA] at h'
  rw [hb] at h
  by_cases hlow : A.toNat + k < b + 4
  · have := h (A.toNat + k - b) (by omega)
    rwa [show b + (A.toNat + k - b) = A.toNat + k by omega] at this
  · have hnext : (A.toNat + 3) / 4 * 4 = b + 4 := by omega
    rw [hnext] at h'
    have := h' (A.toNat + k - (b + 4)) (by omega)
    rwa [show b + 4 + (A.toNat + k - (b + 4)) = A.toNat + k by omega] at this

/-- **`swr`** stores the word it has merged at the address itself. -/
theorem swrEmulate_covers {c : Core σ} {instr addr : Word} (hle : c.optBigendian = false)
    (hbase : c.mmu.baseAddress = mmuBaseAddress) (haddr : effectiveAddress instr c = addr)
    (hcov : c.flat.Covers addr.toNat 4) :
    ∃ mmu, swrEmulate instr c = .ok (c.setMmu mmu) ∧ mmu.baseAddress = mmuBaseAddress ∧
      mmu.flat = c.flat.write addr.toNat (swrData (addr.toNat % 4) (byteOf (c.regs (rt instr)))
        fun k => c.flat.byte (addr.toNat + k)) := by
  have hbytes := swr_bytes (c.regs (rt instr)) c.flat addr.toNat (whichByte_toNat addr)
  have hne : leBytes 4 (swr false (c.regs (rt instr)) (wordAt c.flat addr.toNat)
      (addr.extractLsb' 0 2)).toNat ≠ [] := List.cons_ne_nil _ _
  obtain ⟨mmu, hstore, hbase', hflat⟩ := Core.store_covers hbase hne
    (by rwa [leBytes_length])
  refine ⟨mmu, ?_, hbase', hbytes ▸ hflat⟩
  rw [swrEmulate, haddr, Core.fetchWord_covers hbase hcov, hle]
  exact hstore

/-- **`swl`** stores the lowest byte of what it has merged. -/
theorem swlEmulate_covers {c : Core σ} {instr A : Word} (hle : c.optBigendian = false)
    (hbase : c.mmu.baseAddress = mmuBaseAddress) (haddr : effectiveAddress instr c = A + 3)
    (hA : (A + 3).toNat = A.toNat + 3) (hmapped : WordMapped c (A + 3)) :
    ∃ mmu, swlEmulate instr c = .ok (c.setMmu mmu) ∧ mmu.baseAddress = mmuBaseAddress ∧
      mmu.flat = c.flat.write (A.toNat + 3)
        [swlByte (A.toNat % 4) (byteOf (c.regs (rt instr)))] := by
  have ho := whichByte_toNat (A + 3)
  rw [hA] at ho
  have hbyte := swl_byte (c.regs (rt instr)) (wordAt c.flat ((A + 3).toNat / 4 * 4)) A.toNat ho
  have hword : c.fetchWord ((A + 3) &&& ~~~3) = .ok (wordAt c.flat ((A + 3).toNat / 4 * 4)) := by
    rw [← wordaddr_toNat]
    refine Core.fetchWord_covers hbase ?_
    rw [wordaddr_toNat]
    exact hmapped
  have hcov : c.flat.Covers (A + 3).toNat 1 := by
    intro k hk
    have := hmapped ((A + 3).toNat % 4) (by omega)
    rwa [show (A + 3).toNat / 4 * 4 + (A + 3).toNat % 4 = (A + 3).toNat + k by omega] at this
  obtain ⟨mmu, hstore, hbase', hflat⟩ := @Core.store_covers σ c (A + 3) hbase
    [swlByte (A.toNat % 4) (byteOf (c.regs (rt instr)))] (List.cons_ne_nil _ []) hcov
  rw [hA] at hflat
  refine ⟨mmu, ?_, hbase', hflat⟩
  rw [swlEmulate, haddr, hword, hle]
  show c.storeByte (A + 3) _ = _
  rw [Core.storeByte, hbyte]
  exact hstore

/-! ## Both stores -/

/-- The word is stored at an address, and nothing else has happened. -/
def StoresWord (c : Core σ) (A r : Word) (result : Except Stop (Core σ)) : Prop :=
  ∃ mmu, result = .ok (c.setMmu mmu) ∧ mmu.flat = c.flat.write A.toNat (leBytes 4 r.toNat)

/-- The bytes of the register and those in memory for which `swr` and then `swl` store the word, by
the place of the address. -/
def SwrFirst (place : Nat) (r m : Nat → UInt8) : Prop :=
  match place with
  | 0 => r 0 = r 3
  | 1 => m 0 = r 0 ∧ r 0 = r 1 ∧ r 1 = r 2
  | 2 => m 0 = r 0 ∧ m 1 = r 1 ∧ r 0 = r 2 ∧ r 2 = r 3
  | _ => m 0 = r 0 ∧ m 1 = r 1 ∧ m 2 = r 2 ∧ r 1 = r 3

/-- The same for `swl` and then `swr`. -/
def SwlFirst (place : Nat) (r m : Nat → UInt8) : Prop :=
  match place with
  | 0 => True
  | 1 => m 0 = r 0 ∧ r 0 = r 1 ∧ r 1 = r 2 ∧ r 2 = r 3
  | 2 => m 0 = r 0 ∧ m 1 = r 1 ∧ r 0 = r 2 ∧ r 1 = r 3
  | _ => m 0 = r 0 ∧ m 1 = r 1 ∧ m 2 = r 2 ∧ r 0 = r 3

theorem swrFirst_iff (place : Nat) (r m : Nat → UInt8) :
    (swrData place r m).take 3 ++ [swlByte place r] = [r 0, r 1, r 2, r 3] ↔
      SwrFirst place r m := by
  unfold swrData swlByte SwrFirst
  split <;> simp

theorem swlFirst_iff (place : Nat) (r m : Nat → UInt8) :
    swrData place r m = [r 0, r 1, r 2, r 3] ↔ SwlFirst place r m := by
  unfold swrData SwlFirst
  split <;> simp

/-- Two writes of the same bytes of memory are one only where they write the same. -/
theorem write_inj {f : FlatMem UInt8} {a : Nat} {data data' : List UInt8}
    (hcov : f.Covers a data.length) (hlen : data'.length = data.length) :
    f.write a data = f.write a data' ↔ data = data' := by
  refine ⟨fun h => ?_, fun h => by rw [h]⟩
  rw [FlatMem.write_of_covers hcov, FlatMem.write_of_covers (hlen ▸ hcov)] at h
  have hbyte := congrArg (fun f => stretch f.byte a data.length) h
  simp only at hbyte
  rw [stretch_overlay, ← hlen, stretch_overlay] at hbyte
  exact hbyte

/-- A store that ends in a flat memory stores the word where that is the write of it. -/
theorem storesWord_iff {c : Core σ} {A r : Word} {mmu : Mmu} {data : List UInt8}
    (hcov : c.flat.Covers A.toNat 4) (hlen : data.length = 4)
    (hflat : mmu.flat = c.flat.write A.toNat data) :
    StoresWord c A r (.ok (c.setMmu mmu)) ↔
      data = [byteOf r 0, byteOf r 1, byteOf r 2, byteOf r 3] := by
  have hcov' : c.flat.Covers A.toNat data.length := by rwa [hlen]
  rw [← leBytes_byteOf, ← write_inj hcov' (by rw [leBytes_length, hlen]), ← hflat]
  constructor
  · rintro ⟨mmu', hcore, hword⟩
    have hmmu : mmu = mmu' := congrArg Core.mmu (Except.ok.inj hcore)
    rw [hmmu, hword]
  · exact fun h => ⟨mmu, rfl, h⟩

/-- A write of the last of four bytes. -/
theorem write_last {f : FlatMem UInt8} {a : Nat} {data : List UInt8} (hcov : f.Covers a 4)
    (hlen : data.length = 4) (y : UInt8) :
    (f.write a data).write (a + 3) [y] = f.write a (data.take 3 ++ [y]) := by
  have htake : (data.take 3).length = 3 := by rw [List.length_take]; omega
  have hfirst : f.Covers a (data.take 3).length := fun k hk => hcov k (by omega)
  have hlast : (f.write a (data.take 3)).Covers (a + 3) [y].length := fun k hk => by
    have hzero : k = 0 := Nat.lt_one_iff.mp hk
    rw [hzero]
    exact hcov 3 (by decide)
  have hsplit := FlatMem.write_append hfirst (data.drop 3)
  rw [List.take_append_drop, htake] at hsplit
  rw [hsplit, FlatMem.write_append hfirst [y], htake]
  exact FlatMem.write_absorb hlast (Nat.le_refl _)
    (by rw [List.length_drop, List.length_singleton]; omega)

theorem swrData_congr {place : Nat} {r m m' : Nat → UInt8} (h : ∀ k, k < 3 → m k = m' k) :
    swrData place r m = swrData place r m' := by
  unfold swrData
  rw [h 0 (by decide), h 1 (by decide), h 2 (by decide)]

section Pair

variable {c : Core σ} {A i₁ i₂ : Word} (hle : c.optBigendian = false)
  (hbase : c.mmu.baseAddress = mmuBaseAddress) (hmapped : WordMapped c A)
  (hmapped' : WordMapped c (A + 3)) (h₁ : effectiveAddress i₁ c = A)
  (h₂ : effectiveAddress i₂ c = A + 3)

include hle hbase hmapped hmapped' h₁ h₂

theorem swr_then_swl (hrt : rt i₂ = rt i₁) :
    StoresWord c A (c.regs (rt i₁)) (swrEmulate i₁ c >>= swlEmulate i₂) ↔
      SwrFirst (A.toNat % 4) (byteOf (c.regs (rt i₁))) fun k => c.flat.byte (A.toNat + k) := by
  have hA := toNat_add_three hbase hmapped
  have hcov := covers_of_mapped hA hmapped hmapped'
  obtain ⟨mmu, hswr, hbase₁, hflat⟩ := swrEmulate_covers hle hbase h₁ hcov
  have hmapped₁ : WordMapped (c.setMmu mmu) (A + 3) := by
    intro k hk
    show mmu.flat.dom _ = true
    rw [hflat]
    exact hmapped' k hk
  obtain ⟨mmu', hswl, -, hflat'⟩ := @swlEmulate_covers σ (c.setMmu mmu) i₂ A hle hbase₁
    h₂ hA hmapped₁
  have hregs : (c.setMmu mmu).regs (rt i₂) = c.regs (rt i₁) := by rw [hrt]; rfl
  rw [hregs] at hflat'
  generalize hr : byteOf (c.regs (rt i₁)) = r at *
  generalize hm : (fun k => c.flat.byte (A.toNat + k)) = m at *
  have hresult : (swrEmulate i₁ c >>= swlEmulate i₂) = .ok (c.setMmu mmu') := by
    rw [hswr]
    exact hswl
  have hwrites : mmu'.flat = c.flat.write A.toNat
      ((swrData (A.toNat % 4) r m).take 3 ++ [swlByte (A.toNat % 4) r]) := by
    rw [hflat']
    show mmu.flat.write _ _ = _
    rw [hflat]
    exact write_last hcov (swrData_length _ _ _) _
  rw [hresult, storesWord_iff hcov (by simp [swrData_length]) hwrites, ← swrFirst_iff, hr]

theorem swl_then_swr : StoresWord c A (c.regs (rt i₁)) (swlEmulate i₂ c >>= swrEmulate i₁) ↔
    SwlFirst (A.toNat % 4) (byteOf (c.regs (rt i₁))) fun k => c.flat.byte (A.toNat + k) := by
  have hA := toNat_add_three hbase hmapped
  have hcov := covers_of_mapped hA hmapped hmapped'
  obtain ⟨mmu, hswl, hbase₁, hflat⟩ := swlEmulate_covers hle hbase h₂ hA hmapped'
  have hcov₁ : (c.setMmu mmu).flat.Covers A.toNat 4 := by
    intro k hk
    show mmu.flat.dom _ = true
    rw [hflat]
    exact hcov k hk
  obtain ⟨mmu', hswr, -, hflat'⟩ := @swrEmulate_covers σ (c.setMmu mmu) i₁ A hle hbase₁
    h₁ hcov₁
  have hresult : (swlEmulate i₂ c >>= swrEmulate i₁) = .ok (c.setMmu mmu') := by
    rw [hswl]
    exact hswr
  have hwrites : mmu'.flat = c.flat.write A.toNat (swrData (A.toNat % 4)
      (byteOf (c.regs (rt i₁))) fun k => c.flat.byte (A.toNat + k)) := by
    rw [hflat']
    show mmu.flat.write A.toNat (swrData _ _ fun k => mmu.flat.byte (A.toNat + k)) = _
    rw [hflat, FlatMem.write_absorb (by rwa [swrData_length]) (by omega)
      (by rw [swrData_length, List.length_singleton])]
    refine congrArg _ (swrData_congr fun k hk => ?_)
    exact FlatMem.write_byte_of_lt _ (by omega)
  rw [hresult, storesWord_iff hcov (swrData_length _ _ _) hwrites, swlFirst_iff]

end Pair

/-- **`swr` and `swl` store the word** only where the bytes of the register and of the memory
agree. -/
theorem swr_swl_iff (c : Core σ) (A i₁ i₂ : Word) (hle : c.optBigendian = false)
    (hbase : c.mmu.baseAddress = mmuBaseAddress) (hmapped : WordMapped c A)
    (hmapped' : WordMapped c (A + 3)) (hrt : rt i₂ = rt i₁) (h₁ : effectiveAddress i₁ c = A)
    (h₂ : effectiveAddress i₂ c = A + 3) :
    (StoresWord c A (c.regs (rt i₁)) (swrEmulate i₁ c >>= swlEmulate i₂) ↔
      SwrFirst (A.toNat % 4) (byteOf (c.regs (rt i₁))) fun k => c.flat.byte (A.toNat + k)) ∧
    (StoresWord c A (c.regs (rt i₁)) (swlEmulate i₂ c >>= swrEmulate i₁) ↔
      SwlFirst (A.toNat % 4) (byteOf (c.regs (rt i₁))) fun k => c.flat.byte (A.toNat + k)) :=
  ⟨swr_then_swl hle hbase hmapped hmapped' h₁ h₂ hrt,
    swl_then_swr hle hbase hmapped hmapped' h₁ h₂⟩

/-- A core with the bytes 1 to 8 at `0x400000`, and `$ra` there. -/
def alignedCore : Core Unit := (Cpu.boot [1, 2, 3, 4, 5, 6, 7, 8] 0x400000).core

/-- `swr $zero, 0($ra)` and `swl $zero, 3($ra)` on an aligned word. -/
theorem swr_swl_iff_zero : StoresWord alignedCore 0x400000 0
    (swrEmulate 0xBBE00000 alignedCore >>= swlEmulate 0xABE00003) := by
  have hmapped : WordMapped alignedCore 0x400000 := by
    intro k hk
    match k, hk with
    | 0, _ | 1, _ | 2, _ | 3, _ => rfl
  exact (swr_swl_iff alignedCore 0x400000 0xBBE00000 0xABE00003 rfl rfl hmapped hmapped (by decide)
    (by decide) (by decide)).1.mpr (by decide : byteOf 0 0 = byteOf 0 3)

/-- `swr $ra, 0($ra)` and `swl $ra, 3($ra)` leave the byte 2 at `0x400001`, whose lowest byte
is 1. -/
theorem swr_swl_second : ¬ ∀ (σ : Type) (c : Core σ) (A i₁ i₂ : Word), c.optBigendian = false →
    c.mmu.baseAddress = mmuBaseAddress → WordMapped c A → WordMapped c (A + 3) → rt i₂ = rt i₁ →
    effectiveAddress i₁ c = A → effectiveAddress i₂ c = A + 3 →
    StoresWord c A (c.regs (rt i₁)) (swrEmulate i₁ c >>= swlEmulate i₂) ∧
      StoresWord c A (c.regs (rt i₁)) (swlEmulate i₂ c >>= swrEmulate i₁) := by
  intro hall
  have hfirst : WordMapped unalignedCore 0x400001 := by
    intro k hk
    match k, hk with
    | 0, _ | 1, _ | 2, _ | 3, _ => rfl
  have hsecond : WordMapped unalignedCore (0x400001 + 3) := by
    intro k hk
    match k, hk with
    | 0, _ | 1, _ | 2, _ | 3, _ => rfl
  have hstores := (hall Unit unalignedCore 0x400001 0xBBFF0000 0xABFF0003 rfl rfl hfirst hsecond
    (by decide) (by decide) (by decide)).1
  rw [swr_then_swl rfl rfl hfirst hsecond (by decide) (by decide) (by decide)] at hstores
  have hbyte : (2 : UInt8) = 1 := hstores.1
  exact absurd hbyte (by decide)

end Quals2017.Reeses.Server
