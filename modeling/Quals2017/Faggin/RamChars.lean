import Quals2017.Faggin.Bounds
import Quals2017.Lib.Nibbles

/-!
# The characters of RAM (`faggin/mcs4.c:34-114,691-700,764-863`)

A register of `ram` has 20 nibbles for its 16 main memory characters and 4 status characters.
`WR0` and `RD0` take the nibble 15, which is the last main memory character, and the nibble 19 is
never used. `_mcs4_set_ram` has no `default`, as `_mcs4_get_ram` has: before the first `DCL` nothing
is written.

* `step_write`, `step_read`: what the four instructions do with the selected character.
* `write_separate_iff`: **a character that is written is read back, and no other one changes**, if
  and only if it is `Writable`: it is there already, or bank 0 or 1 has been selected and it is
  neither the last main memory character nor the first status character.
-/

namespace Quals2017.Faggin

open Quals2017.Lib

variable {h : Host} {s s' t : Mcs4}

/-! ## Places -/

/-- A character of a register. -/
inductive RamChar
  | main (k : Fin 16)
  | status (i : Fin 4)
  deriving DecidableEq

/-- The index the handlers use. -/
def RamChar.idx : RamChar → Nat
  | .main k => k
  | .status i => 0xF + i

/-- A character of a register of a chip. -/
structure Place where
  chip : Fin 8
  reg : Fin 4
  char : RamChar
  deriving DecidableEq

namespace Place

/-- Its nibble. -/
def nibble (p : Place) : Nat := 4104 + ((p.chip.val * 4 + p.reg.val) * 20 + p.char.idx)

/-- What is there. -/
def read (s : Mcs4) (p : Place) : BitVec 4 := Nibbles.get s.mem p.nibble

end Place

theorem idx_lt (c : RamChar) : c.idx < 20 := by
  cases c with
  | main k => exact Nat.lt_trans k.isLt (by decide)
  | status i => exact Nat.add_lt_add_left (Nat.lt_succ_of_lt i.isLt) 15

/-- **Two characters share a nibble** if they are the same, or the two with the index 15. -/
theorem idx_inj {c d : RamChar} (h : c.idx = d.idx) (hmain : c ≠ .main 15)
    (hstatus : c ≠ .status 0) : c = d := by
  cases c with
  | main k =>
    have hk : k.val ≠ 15 := fun h => hmain (congrArg _ (Fin.ext h))
    cases d with
    | main k' => exact congrArg _ (Fin.ext h)
    | status i =>
      have hidx : k.val = 15 + i.val := h
      omega
  | status i =>
    have hi : i.val ≠ 0 := fun h => hstatus (congrArg _ (Fin.ext h))
    cases d with
    | main k =>
      have hidx : 15 + i.val = k.val := h
      omega
    | status i' =>
      have hidx : 15 + i.val = 15 + i'.val := h
      exact congrArg _ (Fin.ext (by omega))

theorem nibble_inj {p q : Place} (h : p.nibble = q.nibble) (hmain : p.char ≠ .main 15)
    (hstatus : p.char ≠ .status 0) : p = q := by
  have hp := idx_lt p.char
  have hq := idx_lt q.char
  have hpr := p.reg.isLt
  have hqr := q.reg.isLt
  unfold Place.nibble at h
  obtain ⟨pc, pr, pk⟩ := p
  obtain ⟨qc, qr, qk⟩ := q
  obtain rfl : pc = qc := Fin.ext (by simp only at *; omega)
  obtain rfl : pr = qr := Fin.ext (by simp only at *; omega)
  obtain rfl : pk = qk := idx_inj (by simp only at *; omega) hmain hstatus
  rfl

/-- All of them are in `ram`. -/
theorem nibble_half (p : Place) : 2052 ≤ p.nibble / 2 ∧ p.nibble / 2 < 2372 := by
  have hp := idx_lt p.char
  have hc := p.chip.isLt
  have hr := p.reg.isLt
  unfold Place.nibble
  omega

/-! ## The selected character -/

theorem status_lt_four (s : Mcs4) : status s < 4 := by
  rw [status, BitVec.toNat_and]
  exact Nat.lt_succ_of_le Nat.and_le_right

/-- The character of the instruction. -/
def charOf (s : Mcs4) : RamChar :=
  match op s with
  | .wr | .rd => .status ⟨status s, status_lt_four s⟩
  | _ => .main ⟨mainChar s, mainChar_lt s⟩

theorem idx_mainChar (hop : op s = .wrm ∨ op s = .rdm) : (charOf s).idx = mainChar s := by
  unfold charOf
  rcases hop with hop | hop
  · rw [hop]
    rfl
  · rw [hop]
    rfl

theorem idx_status (hop : op s = .wr ∨ op s = .rd) : (charOf s).idx = 0xF + status s := by
  unfold charOf
  rcases hop with hop | hop
  · rw [hop]
    rfl
  · rw [hop]
    rfl

/-- A half of a byte as the handlers take it. -/
theorem nibble_of_high (b : Byte) : b >>> 4 = ((b >>> 4).setWidth 4).setWidth 8 := by
  ext i hi
  interval_cases i <;> simp

@[inherit_doc nibble_of_high]
theorem nibble_of_low (b : Byte) : b &&& 0xF = (b.setWidth 4).setWidth 8 := by
  ext i hi
  interval_cases i <;> simp

/-- It in the selected register. -/
def selected (s : Mcs4) (hchip : ramChip s < 8) (c : RamChar) : Place :=
  ⟨⟨ramChip s, hchip⟩, ⟨(s.ms.toNat &&& 0x30) >>> 4, ramReg_lt s⟩, c⟩

theorem ramByte_half (hchip : ramChip s < 8) (c : RamChar) :
    (ramByte s c.idx).addr = (selected s hchip c).nibble / 2 := by
  rw [ramByte_addr, Nat.shiftRight_eq_div_pow c.idx]
  unfold Place.nibble selected
  simp only
  omega

theorem nibble_parity (hchip : ramChip s < 8) (c : RamChar) :
    c.idx &&& 1 ≠ 0 ↔ (selected s hchip c).nibble % 2 = 1 := by
  rw [Nat.and_one_is_mod]
  unfold Place.nibble selected
  simp only
  omega

theorem ramByte_inArrays (hchip : ramChip s < 8) (c : RamChar) :
    InArrays (ramByte s c.idx).addr := by
  rw [ramByte_half hchip]
  exact .inl (Nat.lt_trans (nibble_half _).2 (by decide))

theorem ramByte_inBounds' (hchip : ramChip s < 8) (c : RamChar) : (ramByte s c.idx).InBounds :=
  (ramByte_inBounds s (idx_lt c)).mpr hchip

/-- `_mcs4_get_ram` inside `ram`. -/
theorem getRam_eq (hchip : ramChip s < 8) (c : RamChar) :
    getRam h c.idx s = some (((selected s hchip c).read s).setWidth 8, s) := by
  have hload := load_eq (h := h) (ramByte_inBounds' hchip c) (ramByte_inArrays hchip c) s
  change (load h (ramByte s c.idx) s).bind _ = _
  rw [hload, ramByte_half hchip]
  show some ((if c.idx &&& 1 ≠ 0 then s.mem _ >>> 4 else s.mem _ &&& 0xF), s) = _
  unfold Place.read Nibbles.get
  by_cases hodd : c.idx &&& 1 ≠ 0
  · rw [if_pos hodd, if_pos ((nibble_parity hchip c).mp hodd)]
    exact congrArg (fun b => some (b, s)) (nibble_of_high _)
  · rw [if_neg hodd, if_neg (mt (nibble_parity hchip c).mpr hodd)]
    exact congrArg (fun b => some (b, s)) (nibble_of_low _)

/-- Two assignments with an operator. -/
theorem updates_eq {x : Access} (hx : x.InBounds) (hin : InArrays x.addr) (f g : Byte → Byte)
    (s : Mcs4) : (update h x f >>= fun _ => update h x g) s =
      some ((), poke s x.addr (g (f (s.mem x.addr)))) := by
  rw [bind_apply, update_eq hx hin]
  dsimp only [Option.bind_some]
  rw [update_eq hx hin, poke_mem_self]
  refine congrArg (fun s => some ((), s)) ?_
  unfold poke
  simp only [Mcs4.mk.injEq, and_true]
  funext n
  split_ifs <;> rfl

/-- The banks with a line of their own, as long as the character is in `ram`. -/
theorem bank_iff (hchip : ramChip s < 8) :
    s.cmram ∈ ([1, 2, 4, 3] : List (BitVec 4)) ↔ s.cmram = 1 ∨ s.cmram = 2 := by
  have h4 : s.cmram ≠ 4 := by
    intro h4
    rw [ramChip, h4] at hchip
    exact Nat.not_lt.mpr Nat.left_le_or hchip
  have h3 : s.cmram ≠ 3 := by
    intro h3
    rw [ramChip, h3] at hchip
    exact Nat.not_lt.mpr (Nat.le_trans (by decide) Nat.left_le_or) hchip
  revert h4 h3
  generalize s.cmram = m
  revert m
  decide

/-- The state with the character written, if the bank has a line of its own. -/
def written (s : Mcs4) (p : Place) (v : BitVec 4) : Mcs4 :=
  if s.cmram = 1 ∨ s.cmram = 2 then { s with mem := Nibbles.set s.mem p.nibble v } else s

/-- `_mcs4_set_ram` inside `ram`. -/
theorem setRam_eq (hchip : ramChip s < 8) (c : RamChar) (v : BitVec 4) :
    setRam h c.idx (v.setWidth 8) s = some ((), written s (selected s hchip c) v) := by
  have hx := ramByte_inBounds' hchip c
  have hin := ramByte_inArrays hchip c
  change (if s.cmram ∈ ([1, 2, 4, 3] : List (BitVec 4)) then
    if c.idx &&& 1 ≠ 0 then update h (ramByte s c.idx) (· &&& 0x0F) >>= fun _ =>
      update h (ramByte s c.idx) (· ||| v.setWidth 8 <<< 4)
    else update h (ramByte s c.idx) (· &&& 0xF0) >>= fun _ =>
      update h (ramByte s c.idx) (· ||| v.setWidth 8)
    else pure ()) s = _
  unfold written
  by_cases hbank : s.cmram ∈ ([1, 2, 4, 3] : List (BitVec 4))
  · rw [if_pos hbank, if_pos ((bank_iff hchip).mp hbank)]
    by_cases hodd : c.idx &&& 1 ≠ 0
    · rw [if_pos hodd, updates_eq hx hin, ramByte_half hchip]
      unfold poke Nibbles.set
      simp only [(nibble_parity hchip c).mp hodd, decide_true]
      rfl
    · have heven := mt (nibble_parity hchip c).mpr hodd
      rw [if_neg hodd, updates_eq hx hin, ramByte_half hchip]
      unfold poke Nibbles.set
      simp only [heven, decide_false]
      rfl
  · rw [if_neg hbank, if_neg (mt (bank_iff hchip).mpr hbank)]
    rfl

/-! ## The four instructions -/

/-- `ms` and `cmram` stay, and so do the bytes in front of the program counter registers. -/
structure SameRam (s t : Mcs4) : Prop where
  ms : t.ms = s.ms
  cmram : t.cmram = s.cmram
  mem : ∀ n, 2052 ≤ n → n < 2372 → t.mem n = s.mem n

theorem sameRam_incremented (s : Mcs4) : SameRam s (incremented s) := by
  refine ⟨?_, ?_, fun n _ hn => incremented_prom (by omega) s⟩
  · rw [incremented_eq]
  · rw [incremented_eq]

theorem SameRam.trans {u : Mcs4} (hst : SameRam s t) (htu : SameRam t u) : SameRam s u :=
  ⟨htu.ms.trans hst.ms, htu.cmram.trans hst.cmram,
    fun n hlo hhi => (htu.mem n hlo hhi).trans (hst.mem n hlo hhi)⟩

theorem SameRam.read (hst : SameRam s t) (p : Place) : p.read t = p.read s :=
  Nibbles.get_congr (hst.mem _ (nibble_half p).1 (nibble_half p).2)

/-- The selection is that of `ms` and `cmram`. -/
theorem ramChip_congr (hms : t.ms = s.ms) (hcmram : t.cmram = s.cmram) : ramChip t = ramChip s := by
  unfold ramChip
  rw [hms, hcmram]

theorem selected_congr (hms : t.ms = s.ms) (hcmram : t.cmram = s.cmram) (hchip : ramChip s < 8)
    (hchip' : ramChip t < 8) (c : RamChar) : selected t hchip' c = selected s hchip c := by
  unfold selected
  simp only [ramChip_congr hms hcmram, hms]

theorem written_ms (s : Mcs4) (p : Place) (v : BitVec 4) : (written s p v).ms = s.ms := by
  unfold written
  split_ifs <;> rfl

theorem written_cmram (s : Mcs4) (p : Place) (v : BitVec 4) : (written s p v).cmram = s.cmram := by
  unfold written
  split_ifs <;> rfl

/-- What was there already is written without a change. -/
theorem written_self (s : Mcs4) (p : Place) : written s p (p.read s) = s := by
  unfold written Place.read
  rw [Nibbles.set_get, ite_self]

theorem read_written (hbank : s.cmram = 1 ∨ s.cmram = 2) (p q : Place) (v : BitVec 4) :
    q.read (written s p v) = if q.nibble = p.nibble then v else q.read s := by
  unfold written
  rw [if_pos hbank]
  exact Nibbles.get_set s.mem p.nibble q.nibble v

/-- `tmp` does not matter. -/
theorem sameRam_written (tmp : BitVec 4) (p : Place) (v : BitVec 4) :
    SameRam (written s p v) (written { s with tmp := tmp } p v) := by
  unfold written
  simp only
  split_ifs
  · exact ⟨rfl, rfl, fun _ _ _ => rfl⟩
  · exact ⟨rfl, rfl, fun _ _ _ => rfl⟩

/-- **`WRM` and `WR0` to `WR3`.** -/
theorem step_write (hop : op s = .wrm ∨ op s = .wr) (hchip : ramChip s < 8) :
    ∃ s', step h s = some ((), s') ∧
      SameRam (written s (selected s hchip (charOf s)) s.a) s' := by
  rcases hop with hop | hop
  · refine ⟨_, ?_, sameRam_incremented _⟩
    rw [step_eq, hop]
    change ((setRam h (mainChar s) (s.a.setWidth 8)) s).bind _ = _
    rw [← idx_mainChar (.inl hop), setRam_eq hchip]
    exact incPc_eq _
  · have hset := setRam_eq (h := h) (s := { s with tmp := (instruction s).setWidth 4 &&& 0x3 })
      hchip (charOf s) s.a
    refine ⟨_, ?_, (sameRam_written ((instruction s).setWidth 4 &&& 0x3) _ s.a).trans
      (sameRam_incremented _)⟩
    rw [step_eq, hop]
    change (opWr h) s = _
    rw [opWr, bind_apply, statusTmp_eq]
    change ((setRam h (0xF + status s) (s.a.setWidth 8)) _).bind _ = _
    rw [← idx_status (.inl hop), hset]
    exact incPc_eq _

/-- A nibble in a byte. -/
theorem setWidth_byte (v : BitVec 4) : (v.setWidth 8).setWidth 4 = v := by
  revert v
  decide

/-- **`RDM` and `RD0` to `RD3`.** -/
theorem step_read (hop : op s = .rdm ∨ op s = .rd) (hchip : ramChip s < 8) :
    ∃ s', step h s = some ((), s') ∧ s'.a = (selected s hchip (charOf s)).read s := by
  rcases hop with hop | hop
  · refine ⟨incremented { s with
      a := (((selected s hchip (charOf s)).read s).setWidth 8).setWidth 4 }, ?_, ?_⟩
    · rw [step_eq, hop]
      change ((getRam h (mainChar s)) s).bind _ = _
      rw [← idx_mainChar (.inr hop), getRam_eq hchip]
      exact incPc_eq _
    · rw [incremented_eq]
      exact setWidth_byte _
  · refine ⟨incremented { s with
      tmp := (instruction s).setWidth 4 &&& 0x3
      a := (((selected s hchip (charOf s)).read s).setWidth 8).setWidth 4 }, ?_, ?_⟩
    · have hget := getRam_eq (h := h) (s := { s with tmp := (instruction s).setWidth 4 &&& 0x3 })
        hchip (charOf s)
      rw [step_eq, hop]
      change (opRd h) s = _
      rw [opRd, bind_apply, statusTmp_eq]
      change ((getRam h (0xF + status s)) _).bind _ = _
      rw [← idx_status (.inr hop), hget]
      exact incPc_eq _
    · rw [incremented_eq]
      exact setWidth_byte _

/-! ## Separation -/

/-- `RDM`, or the one of `RD0` to `RD3` for a status character. -/
def Reads (t : Mcs4) (c : RamChar) : Prop := (op t = .rdm ∨ op t = .rd) ∧ charOf t = c

/-- What has been written is read back as long as the RAM and its selection stay, and no other
character has changed. -/
structure Separate (h : Host) (s s' : Mcs4) (hchip : ramChip s < 8) : Prop where
  back : ∀ t, SameRam s' t → Reads t (charOf s) → ∃ t', step h t = some ((), t') ∧ t'.a = s.a
  frame : ∀ p, p ≠ selected s hchip (charOf s) → p.read s' = p.read s

/-- A byte that reads a character. -/
def opcode : RamChar → Byte
  | .main _ => 0xE9
  | .status i => 0xEC + BitVec.ofNat 8 i

/-- The state with a ROM that only has this byte. -/
def reader (s : Mcs4) (c : RamChar) : Mcs4 :=
  { s with mem := fun n => if n < 2048 then opcode c else s.mem n }

theorem sameRam_reader (s : Mcs4) (c : RamChar) : SameRam s (reader s c) :=
  ⟨rfl, rfl, fun _ hn _ => if_neg (by omega)⟩

theorem instruction_reader (s : Mcs4) (c : RamChar) : instruction (reader s c) = opcode c :=
  if_pos (Nat.lt_succ_of_le Nat.and_le_right)

theorem reads_reader {c : RamChar} (hmain : ∀ k, c = .main k → k.val = mainChar s) :
    Reads (reader s c) c := by
  have hins := instruction_reader s c
  cases c with
  | main k =>
    have hcode : decode 0xE9 = .rdm := by decide
    have hop : op (reader s (.main k)) = .rdm := by
      rw [op, hins]
      exact hcode
    refine ⟨.inl hop, ?_⟩
    unfold charOf
    rw [hop]
    exact congrArg _ (Fin.ext (hmain k rfl).symm)
  | status i =>
    have hcode : ∀ i : Fin 4, decode (opcode (.status i)) = .rd ∧
        ((opcode (.status i)).setWidth 4 &&& (0x3 : BitVec 4)).toNat = i.val := by decide
    have hop : op (reader s (.status i)) = .rd := by
      rw [op, hins]
      exact (hcode i).1
    refine ⟨.inr hop, ?_⟩
    unfold charOf
    rw [hop]
    refine congrArg _ (Fin.ext ?_)
    show status (reader s (.status i)) = i.val
    rw [status, hins]
    exact (hcode i).2

theorem charOf_main {k : Fin 16} (hk : charOf s = .main k) : k.val = mainChar s := by
  unfold charOf at hk
  split at hk
  · cases hk
  · cases hk
  · rw [← RamChar.main.inj hk]

/-- **Reading back** is reading the character. -/
theorem back_iff (hchip : ramChip s < 8) (hms : s'.ms = s.ms) (hcmram : s'.cmram = s.cmram) :
    (∀ t, SameRam s' t → Reads t (charOf s) → ∃ t', step h t = some ((), t') ∧ t'.a = s.a) ↔
      (selected s hchip (charOf s)).read s' = s.a := by
  -- what an instruction that reads the character puts into the accumulator
  have hread : ∀ t, SameRam s' t → Reads t (charOf s) → ∃ t', step h t = some ((), t') ∧
      t'.a = (selected s hchip (charOf s)).read s' := by
    rintro t hsame ⟨hop, hchar⟩
    have hchip' : ramChip t < 8 := by
      rwa [ramChip_congr (hsame.ms.trans hms) (hsame.cmram.trans hcmram)]
    obtain ⟨t', ht', ha⟩ := step_read (h := h) hop hchip'
    refine ⟨t', ht', ha.trans ?_⟩
    rw [hchar, selected_congr (hsame.ms.trans hms) (hsame.cmram.trans hcmram) hchip]
    exact hsame.read _
  constructor
  · intro hback
    have hreader := reads_reader (s := s') (c := charOf s) fun k hk => by
      rw [charOf_main hk, mainChar, mainChar, hms]
    obtain ⟨t', ht', ha⟩ := hback _ (sameRam_reader s' _) hreader
    obtain ⟨t'', ht'', ha'⟩ := hread _ (sameRam_reader s' _) hreader
    obtain rfl := (Prod.mk.inj (Option.some.inj (ht'.symm.trans ht''))).2
    exact ha'.symm.trans ha
  · intro heq t hsame hreads
    obtain ⟨t', ht', ha⟩ := hread t hsame hreads
    exact ⟨t', ht', ha.trans heq⟩

/-- The other character with the same nibble. -/
theorem frame_twin (hbank : s.cmram = 1 ∨ s.cmram = 2) {p q : Place} {v : BitVec 4}
    (hnibble : q.nibble = p.nibble) (hne : q ≠ p)
    (hframe : ∀ q, q ≠ p → q.read (written s p v) = q.read s) : p.read s = v := by
  have hq := hframe q hne
  rw [read_written hbank, if_pos hnibble] at hq
  rw [hq]
  unfold Place.read
  rw [hnibble]

/-- For the characters that are written as numbers. -/
local instance neZeroSixteen : NeZero 16 := ⟨by decide⟩

/-- The characters that may be written. -/
def Writable (s : Mcs4) (hchip : ramChip s < 8) : Prop :=
  (selected s hchip (charOf s)).read s = s.a ∨
    (s.cmram = 1 ∨ s.cmram = 2) ∧ charOf s ≠ .main 15 ∧ charOf s ≠ .status 0

instance (s : Mcs4) (hchip : ramChip s < 8) : Decidable (Writable s hchip) :=
  inferInstanceAs (Decidable (_ ∨ _))

theorem writable_of_separate (hop : op s = .wrm ∨ op s = .wr) (hchip : ramChip s < 8)
    (hs' : step h s = some ((), s')) (hsep : Separate h s s' hchip) : Writable s hchip := by
  obtain ⟨s'', hs'', hsame⟩ := step_write (h := h) hop hchip
  obtain rfl := (Prod.mk.inj (Option.some.inj (hs'.symm.trans hs''))).2
  have hback := back_iff (h := h) hchip (hsame.ms.trans (written_ms s _ _))
    (hsame.cmram.trans (written_cmram s _ _))
  have hread : ∀ p : Place, p.read s' = p.read (written s (selected s hchip (charOf s)) s.a) :=
    hsame.read
  have hheld := (hread _).symm.trans (hback.mp hsep.back)
  by_cases hbank : s.cmram = 1 ∨ s.cmram = 2
  · have hframe : ∀ q, q ≠ selected s hchip (charOf s) →
        q.read (written s (selected s hchip (charOf s)) s.a) = q.read s :=
      fun q hq => (hread q).symm.trans (hsep.frame q hq)
    by_cases hmain : charOf s = .main 15
    · refine .inl (frame_twin (q := selected s hchip (.status 0)) hbank ?_ ?_ hframe)
      · rw [hmain]
        rfl
      · rw [hmain]
        exact fun heq => (nomatch congrArg Place.char heq)
    by_cases hstatus : charOf s = .status 0
    · refine .inl (frame_twin (q := selected s hchip (.main 15)) hbank ?_ ?_ hframe)
      · rw [hstatus]
        rfl
      · rw [hstatus]
        exact fun heq => (nomatch congrArg Place.char heq)
    exact .inr ⟨hbank, hmain, hstatus⟩
  · rw [written, if_neg hbank] at hheld
    exact .inl hheld

theorem separate_of_writable (hop : op s = .wrm ∨ op s = .wr) (hchip : ramChip s < 8)
    (hw : Writable s hchip) : ∃ s', step h s = some ((), s') ∧ Separate h s s' hchip := by
  obtain ⟨s', hs', hsame⟩ := step_write (h := h) hop hchip
  have hback := back_iff (h := h) hchip (hsame.ms.trans (written_ms s _ _))
    (hsame.cmram.trans (written_cmram s _ _))
  have hread : ∀ p : Place, p.read s' = p.read (written s (selected s hchip (charOf s)) s.a) :=
    hsame.read
  rcases hw with hheld | ⟨hbank, hmain, hstatus⟩
  · have hsame' : ∀ p : Place, p.read s' = p.read s := by
      rw [← hheld, written_self] at hread
      exact hread
    exact ⟨s', hs', hback.mpr ((hsame' _).trans hheld), fun p _ => hsame' p⟩
  · refine ⟨s', hs', hback.mpr ?_, fun p hp => ?_⟩
    · rw [hread, read_written hbank, if_pos rfl]
    · rw [hread, read_written hbank, if_neg]
      exact fun hnibble => hp (nibble_inj hnibble.symm hmain hstatus).symm

/-- **What is written is read back, and nothing else changes**, if and only if the character may be
written. -/
theorem write_separate_iff (h : Host) (hop : op s = .wrm ∨ op s = .wr) (hchip : ramChip s < 8) :
    (∃ s', step h s = some ((), s') ∧ Separate h s s' hchip) ↔ Writable s hchip :=
  ⟨fun ⟨_, hs', hsep⟩ => writable_of_separate hop hchip hs' hsep, separate_of_writable hop hchip⟩

/-- A ROM with one instruction, in bank 0. -/
def filled (b : Byte) : Mcs4 := { init fun _ => b with cmram := 1, a := 5 }

/-- `WRM` of the first character. -/
theorem write_separate_first :
    (∃ s', step ⟨true, fun _ _ => 0⟩ (filled 0xE0) = some ((), s') ∧
      Separate ⟨true, fun _ _ => 0⟩ (filled 0xE0) s' (by decide)) ↔
        Writable (filled 0xE0) (by decide) :=
  write_separate_iff ⟨true, fun _ _ => 0⟩ (.inl (by decide)) (by decide)

/-- **`WR0` overwrites the last main memory character.** -/
theorem wr0_overwrites : ¬∀ (h : Host) (s : Mcs4), op s = .wrm ∨ op s = .wr →
    ∀ hchip : ramChip s < 8, ∃ s', step h s = some ((), s') ∧ Separate h s s' hchip := by
  intro hall
  have hop : op (filled 0xE4) = .wr := by decide
  have hchip : ramChip (filled 0xE4) < 8 := by decide
  obtain ⟨s', hs', hsep⟩ := hall ⟨true, fun _ _ => 0⟩ (filled 0xE4) (.inr hop) hchip
  have hnot : ¬Writable (filled 0xE4) (by decide) := by decide
  exact hnot (writable_of_separate (.inr hop) hchip hs' hsep)

end Quals2017.Faggin
