import Quals2017.Faggin.Cycles
import Quals2017.Faggin.CallStack
import Quals2017.Lib.Nibbles

/-!
# Control transfer (`faggin/mcs4.c:430-576`)

What the comments say of `JCN`, `JUN`, `JIN`, `ISZ` and `FIN` (`targetPc`, `targetReg`), and where
the handlers do it. `ISZ` always does. `JCN` puts its page into a byte and inverts its condition
with `^ 8`, which no condition makes 0; `JUN` and `JIN` take for their operands bits of the address
of the instruction; `FIN` does not read the ROM at all.

* `opJcn_eq`, `opJun_eq`, `opFin_eq`, `opIsz_eq`: what the handlers do.
* `transfer_iff`: **an instruction goes where its comment says** if and only if it is `Honest`.
-/

namespace Quals2017.Faggin

open Quals2017.Lib

variable {h : Host} {s s' : Mcs4}

/-! ## The registers -/

/-- Register `i`. -/
def reg (s : Mcs4) (i : Nat) : BitVec 4 := Nibbles.get s.mem (4752 + i)

theorem nibble_eq (s : Mcs4) (i : Nat) : nibble s i = (reg s i).setWidth 8 := by
  have hhigh : ∀ b : Byte, b >>> 4 = ((b >>> 4).setWidth 4).setWidth 8 := by decide
  have hlow : ∀ b : Byte, b &&& 0x0F = (b.setWidth 4).setWidth 8 := by decide
  have hhalf : 2376 + i >>> 1 = (4752 + i) / 2 := by
    rw [Nat.shiftRight_eq_div_pow]
    omega
  have hodd : i &&& 1 ≠ 0 ↔ (4752 + i) % 2 = 1 := by
    rw [Nat.and_one_is_mod]
    omega
  unfold nibble reg Nibbles.get
  rw [hhalf]
  by_cases hi : i &&& 1 ≠ 0
  · rw [if_pos hi, if_pos (hodd.mp hi)]
    exact hhigh _
  · rw [if_neg hi, if_neg (mt hodd.mpr hi)]
    exact hlow _

/-- The state with a register replaced. -/
def setReg (s : Mcs4) (i : Nat) (v : BitVec 4) : Mcs4 :=
  { s with mem := Nibbles.set s.mem (4752 + i) v }

theorem setR_eq {i : Nat} (hi : i < 16) (val : Byte) (s : Mcs4) :
    setR h i val s = some ((), setReg s i (val.setWidth 4)) := by
  have hin : InArrays (Access.addr ⟨.r, [i >>> 1]⟩) := by
    rw [r_addr]
    exact .inl (Nat.add_lt_add_left (half_lt hi) 2376)
  have hhalf : 2376 + i >>> 1 = (4752 + i) / 2 := by
    rw [Nat.shiftRight_eq_div_pow]
    omega
  have hodd : i &&& 1 ≠ 0 ↔ (4752 + i) % 2 = 1 := by
    rw [Nat.and_one_is_mod]
    omega
  have hhigh : ∀ b c : Byte,
      (b &&& 0xF) <<< 4 ||| c &&& 0x0F = Nibbles.withHalf c true (b.setWidth 4) := by
    intro b c
    ext i hi
    interval_cases i <;> simp [Nibbles.withHalf]
  have hlow : ∀ b c : Byte,
      c &&& 0xF0 ||| b &&& 0xF = Nibbles.withHalf c false (b.setWidth 4) := by
    intro b c
    ext i hi
    interval_cases i <;> simp [Nibbles.withHalf]
  rw [setR, update_eq (inBounds_single (half_lt hi)) hin, r_addr, hhalf]
  unfold poke setReg Nibbles.set
  by_cases hi' : i &&& 1 ≠ 0
  · simp only [if_pos hi', hhigh, hodd.mp hi', decide_true]
  · simp only [if_neg hi', hlow, mt hodd.mpr hi', decide_false]

theorem reg_setReg (s : Mcs4) (i k : Nat) (v : BitVec 4) :
    reg (setReg s i v) k = if k = i then v else reg s k := by
  unfold reg setReg
  rw [Nibbles.get_set]
  exact if_congr (Nat.add_left_cancel_iff) rfl rfl

theorem setReg_self (s : Mcs4) (i : Nat) : setReg s i (reg s i) = s := by
  unfold setReg reg
  rw [Nibbles.set_get]

/-- The registers are not where the addresses and the ROM are. -/
theorem setReg_mem {i n : Nat} (hi : i < 16) (hn : n < 2376 ∨ 2384 ≤ n) (v : BitVec 4) :
    (setReg s i v).mem n = s.mem n := Nibbles.set_frame (by omega)

theorem slot_setReg {i : Nat} (hi : i < 16) (v : BitVec 4) (k : Nat) :
    slot (setReg s i v) k = slot s k := by
  unfold slot
  dsimp only
  rw [setReg_mem hi (.inr (by omega)), setReg_mem hi (.inr (by omega)),
    setReg_mem hi (.inr (by omega))]

theorem instruction_setReg {i : Nat} (hi : i < 16) (v : BitVec 4) :
    instruction (setReg s i v) = instruction s := by
  have hlt : (slot s 0).toNat &&& 2047 ≤ 2047 := Nat.and_le_right
  unfold instruction
  rw [slot_setReg hi, setReg_mem hi (.inl (by omega))]

theorem reg_setSlot {i : Nat} (hi : i < 16) (s : Mcs4) (val : BitVec 16) :
    reg (setSlot s 0 val) i = reg s i := Nibbles.get_congr (setSlot_prom (by omega) s 0 val)

theorem reg_incremented {i : Nat} (hi : i < 16) (s : Mcs4) : reg (incremented s) i = reg s i :=
  Nibbles.get_congr (incremented_prom (by omega) s)

/-! ## What the comments say -/

/-- The second byte of an instruction. -/
def arg (s : Mcs4) : Byte := instruction (incremented s)

/-- The low half of an instruction. -/
def opa (s : Mcs4) : BitVec 4 := (instruction s).setWidth 4

/-- An address in the page of the instruction. -/
def onPage (s : Mcs4) (b : Byte) : BitVec 16 := slot s 0 &&& 0xF00 ||| b.setWidth 16

/-- The condition of `JCN` before the inversion. -/
def Condition (s : Mcs4) : Prop :=
  (opa s &&& 0x4 ≠ 0 ∧ s.a = 0) ∨ (opa s &&& 0x2 ≠ 0 ∧ s.c = 1) ∨ (opa s &&& 0x1 ≠ 0 ∧ s.t = 0)

instance (s : Mcs4) : Decidable (Condition s) := inferInstanceAs (Decidable (_ ∨ _))

/-- Whether `JCN` jumps: the bit 8 inverts. -/
def Jumps (s : Mcs4) : Prop := Condition s ↔ opa s &&& 0x8 = 0

instance (s : Mcs4) : Decidable (Jumps s) := inferInstanceAs (Decidable (_ ↔ _))

/-- The pair of an instruction. -/
def pairValue (s : Mcs4) : Byte := regPair s (pairOf (instruction s))

/-- The byte that `FIN` loads. -/
def indirect (s : Mcs4) : Byte := s.mem ((onPage s (pairValue s)).toNat &&& 2047)

/-- The program counter behind an instruction. -/
def targetPc (s : Mcs4) : BitVec 16 :=
  match op s with
  | .jcn => if Jumps s then onPage s (arg s) else following s
  | .jun => (opa s).setWidth 16 <<< 8 ||| (arg s).setWidth 16
  | .jin => onPage s (pairValue s)
  | .isz => if reg s (opa s).toNat + 1 ≠ 0 then onPage s (arg s) else following s
  | _ => nextPc (slot s 0)

/-- The registers behind it. -/
def targetReg (s : Mcs4) (i : Nat) : BitVec 4 :=
  match op s with
  | .isz => if i = (opa s).toNat then reg s i + 1 else reg s i
  | .fin =>
    if i = 2 * pairOf (instruction s) then (indirect s >>> 4).setWidth 4
    else if i = 2 * pairOf (instruction s) + 1 then (indirect s).setWidth 4
    else reg s i
  | _ => reg s i

/-- An instruction has gone where its comment says. -/
structure Transferred (s s' : Mcs4) : Prop where
  pc : slot s' 0 = targetPc s
  regs : ∀ i, i < 16 → reg s' i = targetReg s i

/-! ## What the handlers do -/

/-- Whether the handler of `JCN` jumps. -/
def Branches (s : Mcs4) : Prop :=
  (opa s &&& 0x4 ≠ 0 ∧ jumpsOn (s.a == 0) (opa s)) ∨
    (opa s &&& 0x2 ≠ 0 ∧ jumpsOn (s.c == 1) (opa s)) ∨
    (opa s &&& 0x1 ≠ 0 ∧ jumpsOn (s.t == 0) (opa s))

instance (s : Mcs4) : Decidable (Branches s) := inferInstanceAs (Decidable (_ ∨ _))

/-- **An inverted condition** is any one at all. -/
theorem branches_iff (s : Mcs4) :
    Branches s ↔ if opa s &&& 0x8 = 0 then Condition s else opa s &&& 0x7 ≠ 0 := by
  have hcases : ∀ (tmp : BitVec 4) (a : BitVec 4) (c t : BitVec 1),
      ((tmp &&& 0x4 ≠ 0 ∧ jumpsOn (a == 0) tmp) ∨ (tmp &&& 0x2 ≠ 0 ∧ jumpsOn (c == 1) tmp) ∨
        (tmp &&& 0x1 ≠ 0 ∧ jumpsOn (t == 0) tmp)) ↔ if tmp &&& 0x8 = 0 then
          (tmp &&& 0x4 ≠ 0 ∧ a = 0) ∨ (tmp &&& 0x2 ≠ 0 ∧ c = 1) ∨ (tmp &&& 0x1 ≠ 0 ∧ t = 0)
        else tmp &&& 0x7 ≠ 0 := by
    decide +kernel
  exact hcases (opa s) s.a s.c s.t

theorem page_byte (pc : BitVec 16) : (pc &&& 0xF00).setWidth 8 = (0 : Byte) := by
  ext i hi
  interval_cases i <;> simp

/-- The instruction behind a handler that has put its low half into `tmp`. -/
def tmpSet (s : Mcs4) : Mcs4 := { s with tmp := opa s }

theorem opJcn_eq (s : Mcs4) : opJcn h s = some ((),
    if Branches s then setSlot (incremented (tmpSet s)) 0 ((arg s).setWidth 16)
    else incremented (incremented (tmpSet s))) := by
  unfold opJcn
  rw [bind_apply, getPc_eq (by decide)]
  dsimp only [Option.bind_some]
  rw [bind_apply, fetchTmp_eq]
  dsimp only [Option.bind_some]
  rw [bind_apply, incPc_eq]
  dsimp only [Option.bind_some]
  change (if Branches s then fetch h >>= fun b => setPc h 0 (_ ||| b.setWidth 16) else incPc h)
    (incremented (tmpSet s)) = _
  split_ifs
  · rw [bind_apply, fetch_eq]
    dsimp only [Option.bind_some]
    rw [page_byte]
    have hor : ∀ b : BitVec 16, (0 : Byte).setWidth 16 ||| b = b := fun b => BitVec.zero_or
    rw [hor]
    exact setPc_eq (by decide) _ _
  · exact incPc_eq _

theorem opJun_eq (s : Mcs4) : opJun h s = some ((), setSlot
    (incremented { s with tmp := (slot s 0).setWidth 4 }) 0
    (((slot s 0).setWidth 4).setWidth 16 <<< 8 ||| nextPc (slot s 0))) := by
  unfold opJun
  rw [bind_apply, getPc_eq (by decide)]
  dsimp only [Option.bind_some]
  rw [bind_apply]
  change (incPc h >>= fun _ => getPc h 0 >>= fun pc' => setPc h 0 (_ ||| pc'))
    { s with tmp := (slot s 0).setWidth 4 } = _
  rw [bind_apply, incPc_eq]
  dsimp only [Option.bind_some]
  rw [bind_apply, getPc_eq (by decide), slot_incremented_zero]
  exact setPc_eq (show 0 < 4 by decide) _ _

/-- The two halves of a register pair. -/
theorem regPair_halves (s : Mcs4) (pair : Nat) :
    (regPair s pair >>> 4).setWidth 4 = reg s (2 * pair) ∧
      (regPair s pair &&& 0xF).setWidth 4 = reg s (2 * pair + 1) := by
  have hhalves : ∀ x y : BitVec 4,
      ((x.setWidth 8 <<< 4 ||| y.setWidth 8 : Byte) >>> 4).setWidth 4 = x ∧
      ((x.setWidth 8 <<< 4 ||| y.setWidth 8 : Byte) &&& 0xF).setWidth 4 = y := by decide
  unfold regPair
  rw [nibble_eq, nibble_eq]
  exact hhalves _ _

/-- The pair is put back. -/
theorem opFin_eq (s : Mcs4) : opFin h s =
    some ((), incremented { s with tmp := BitVec.ofNat 4 (pairOf (instruction s)) }) := by
  have hpair := pairOf_lt (instruction s)
  have hpage : ∀ b data : Byte, (b.setWidth 16 &&& 0xF00).setWidth 8 ||| data = data := by
    intro b data
    ext i hi
    interval_cases i <;> simp
  unfold opFin
  rw [bind_apply, fetch_eq]
  dsimp only [Option.bind_some]
  rw [bind_apply]
  change (fetch h >>= fun b' => getRegPair h _ >>= fun data => setRegPair h _ _ >>= fun _ =>
    incPc h) { s with tmp := BitVec.ofNat 4 (pairOf (instruction s)) } = _
  generalize hu : ({ s with tmp := BitVec.ofNat 4 (pairOf (instruction s)) } : Mcs4) = u
  rw [bind_apply, fetch_eq]
  dsimp only [Option.bind_some]
  rw [bind_apply, getRegPair_eq hpair]
  dsimp only [Option.bind_some]
  obtain ⟨hhi, hlo⟩ := regPair_halves u (pairOf (instruction s))
  have hset : setRegPair h (pairOf (instruction s)) (regPair u (pairOf (instruction s))) u =
      some ((), u) := by
    unfold setRegPair
    rw [bind_apply, setR_eq (by omega), hhi, setReg_self]
    dsimp only [Option.bind_some]
    rw [setR_eq (by omega), hlo, setReg_self]
  rw [hpage, bind_apply, hset]
  exact incPc_eq u

/-- `ISZ` with its register counted. -/
def counted (s : Mcs4) : Mcs4 :=
  setReg (incremented (tmpSet s)) (opa s).toNat (reg s (opa s).toNat + 1)

theorem slot_counted (s : Mcs4) : slot (counted s) 0 = nextPc (slot s 0) := by
  rw [counted, slot_setReg (nibble_lt _), slot_incremented_zero]
  rfl

theorem opIsz_eq (s : Mcs4) : opIsz h s = some ((), if reg s (opa s).toNat + 1 ≠ 0 then
    setSlot (counted s) 0 (nextPc (slot s 0) &&& 0xF00 ||| (arg s).setWidth 16)
    else incremented (counted s)) := by
  have hlt : (opa s).toNat < 16 := nibble_lt _
  have hreg : reg (incremented (tmpSet s)) (opa s).toNat = reg s (opa s).toNat :=
    reg_incremented hlt _
  have hwidth : ∀ v : BitVec 4, (v.setWidth 8 + 1 : Byte).setWidth 4 = v + 1 := by decide
  have hzero : ∀ v : BitVec 4, (v.setWidth 8 ≠ (0 : Byte)) ↔ v ≠ 0 := by decide
  unfold opIsz
  rw [bind_apply, fetchTmp_eq]
  dsimp only [Option.bind_some]
  rw [bind_apply, incPc_eq]
  dsimp only [Option.bind_some]
  change (getR h (opa s).toNat >>= fun b => setR h (opa s).toNat (b + 1) >>= fun _ => _)
    (incremented (tmpSet s)) = _
  rw [bind_apply, getR_eq hlt, nibble_eq, hreg]
  dsimp only [Option.bind_some]
  rw [bind_apply, setR_eq hlt, hwidth]
  dsimp only [Option.bind_some]
  change (getR h (opa s).toNat >>= fun b' => _) (counted s) = _
  have hcount : reg (counted s) (opa s).toNat = reg s (opa s).toNat + 1 := by
    rw [counted, reg_setReg, if_pos rfl]
  rw [bind_apply, getR_eq hlt, nibble_eq, hcount]
  dsimp only [Option.bind_some]
  by_cases hne : reg s (opa s).toNat + 1 ≠ 0
  · rw [if_pos ((hzero _).mpr hne), if_pos hne, bind_apply, getPc_eq (by decide), slot_counted]
    dsimp only [Option.bind_some]
    rw [bind_apply, fetch_eq]
    dsimp only [Option.bind_some]
    rw [counted, instruction_setReg hlt]
    exact setPc_eq (by decide) _ _
  · rw [if_neg (mt (hzero _).mp hne), if_neg hne]
    exact incPc_eq _

/-! ## Where they agree -/

/-- Where the inversion goes wrong the two ways out of `JCN` are one, and elsewhere a jump is in
page 0. -/
def HonestJcn (s : Mcs4) : Prop :=
  if opa s &&& 0x8 ≠ 0 ∧ (opa s &&& 0x7 = 0 ∨ Condition s) then
    onPage s (arg s) = following s ∧ (opa s &&& 0x7 = 0 ∨ slot s 0 &&& 0xF00 = 0)
  else Jumps s → slot s 0 &&& 0xF00 = 0

/-- The operands are where the handlers look for them. -/
def Honest (s : Mcs4) : Prop :=
  match op s with
  | .jcn => HonestJcn s
  | .jun => (opa s).setWidth 16 = slot s 0 &&& (0xF : BitVec 16) ||| slot s 0 >>> 8 ∧
      (arg s).setWidth 16 = nextPc (slot s 0) &&& 0xFF
  | .jin => regPair s (jinPair s) = pairValue s
  | .fin => indirect s = pairValue s
  | _ => True

theorem nextPc_page (pc : BitVec 16) : nextPc pc &&& 0xF00 = pc &&& 0xF00 := by
  unfold nextPc
  generalize pc + 1 = pc'
  ext i hi
  interval_cases i <;> simp

theorem following_page (s : Mcs4) : following s &&& 0xF00 = slot s 0 &&& 0xF00 := by
  rw [following, nextPc_page, nextPc_page]

theorem onPage_page (s : Mcs4) (b : Byte) : onPage s b &&& 0xF00 = slot s 0 &&& 0xF00 :=
  page_or_page _ b

theorem byte_page (b : Byte) : b.setWidth 16 &&& (0xF00 : BitVec 16) = 0 := by
  ext i hi
  interval_cases i <;> simp

theorem byte_mask (b : Byte) : b.setWidth 16 &&& (0xFFF : BitVec 16) = b.setWidth 16 := by
  ext i hi
  interval_cases i <;> simp

theorem onPage_zero (hpage : slot s 0 &&& 0xF00 = 0) (b : Byte) : onPage s b = b.setWidth 16 := by
  rw [onPage, hpage]
  exact BitVec.zero_or

/-- A byte is an address of its page in page 0 only. -/
theorem byte_eq_onPage (b : Byte) : b.setWidth 16 = onPage s b ↔ slot s 0 &&& 0xF00 = 0 := by
  refine ⟨fun heq => ?_, fun hpage => (onPage_zero hpage b).symm⟩
  rw [← onPage_page s b, ← heq]
  exact byte_page b

theorem onPage_inj {b b' : Byte} : onPage s b = onPage s b' ↔ b = b' := by
  have hlow : ∀ c : Byte, (onPage s c).setWidth 8 = c := by
    intro c
    unfold onPage
    ext i hi
    interval_cases i <;> simp
  refine ⟨fun heq => ?_, congrArg _⟩
  rw [← hlow b, heq, hlow]

/-- A condition needs one of its three bits. -/
theorem not_condition (h7 : opa s &&& 0x7 = 0) : ¬Condition s := by
  have hbits : ∀ tmp : BitVec 4, tmp &&& 0x7 = 0 →
      tmp &&& 0x4 = 0 ∧ tmp &&& 0x2 = 0 ∧ tmp &&& 0x1 = 0 := by decide
  obtain ⟨h4, h2, h1⟩ := hbits _ h7
  rintro (h | h | h)
  · exact h.1 h4
  · exact h.1 h2
  · exact h.1 h1

theorem jcn_iff (s : Mcs4) : (if Branches s then (arg s).setWidth 16 else following s) =
    (if Jumps s then onPage s (arg s) else following s) ↔ HonestJcn s := by
  unfold HonestJcn
  by_cases h8 : opa s &&& 0x8 = 0
  · have hbranch : Branches s ↔ Condition s := by rw [branches_iff, if_pos h8]
    have hjump : Jumps s ↔ Condition s := iff_true_right h8
    have hright : ¬(opa s &&& 0x8 ≠ 0 ∧ (opa s &&& 0x7 = 0 ∨ Condition s)) := fun hw => hw.1 h8
    rw [if_neg hright]
    by_cases hc : Condition s
    · rw [if_pos (hbranch.mpr hc), if_pos (hjump.mpr hc), byte_eq_onPage]
      exact (imp_iff_right (hjump.mpr hc)).symm
    · rw [if_neg (mt hbranch.mp hc), if_neg (mt hjump.mp hc)]
      exact ⟨fun _ hj => absurd (hjump.mp hj) hc, fun _ => rfl⟩
  · have hbranch : Branches s ↔ opa s &&& 0x7 ≠ 0 := by rw [branches_iff, if_neg h8]
    have hjump : Jumps s ↔ ¬Condition s := iff_false_right h8
    by_cases h7 : opa s &&& 0x7 = 0
    · -- no condition at all: the handler goes on
      rw [if_neg (fun hb => hbranch.mp hb h7), if_pos (hjump.mpr (not_condition h7)),
        if_pos ⟨h8, .inl h7⟩]
      exact ⟨fun heq => ⟨heq.symm, .inl h7⟩, fun heq => heq.1.symm⟩
    rw [if_pos (hbranch.mpr h7)]
    by_cases hc : Condition s
    · -- the condition holds: the handler jumps all the same
      rw [if_neg (fun hj => hjump.mp hj hc), if_pos ⟨h8, .inr hc⟩]
      constructor
      · intro heq
        have hpage : slot s 0 &&& 0xF00 = 0 := by
          rw [← following_page, ← heq]
          exact byte_page _
        exact ⟨(onPage_zero hpage _).trans heq, .inr hpage⟩
      · rintro ⟨heq, hor⟩
        rw [← heq]
        exact (onPage_zero (hor.resolve_left h7) _).symm
    · have hright : ¬(opa s &&& 0x8 ≠ 0 ∧ (opa s &&& 0x7 = 0 ∨ Condition s)) :=
        fun hw => hw.2.elim h7 hc
      rw [if_pos (hjump.mpr hc), if_neg hright, byte_eq_onPage]
      exact (imp_iff_right (hjump.mpr hc)).symm

/-- An address of 12 bits is its high nibble and its low byte. -/
theorem address_eq_iff (w : BitVec 16) (o : BitVec 4) (b : Byte) :
    w &&& (0xFFF : BitVec 16) = o.setWidth 16 <<< 8 ||| b.setWidth 16 ↔
      o.setWidth 16 = w >>> 8 &&& (0xF : BitVec 16) ∧ b.setWidth 16 = w &&& 0xFF := by
  have hhigh : (o.setWidth 16 <<< 8 ||| b.setWidth 16 : BitVec 16) >>> 8 = o.setWidth 16 := by
    ext i hi
    interval_cases i <;> simp
  have hlow : (o.setWidth 16 <<< 8 ||| b.setWidth 16 : BitVec 16) &&& 0xFF = b.setWidth 16 := by
    ext i hi
    interval_cases i <;> simp
  have hhigh' : (w &&& 0xFFF) >>> 8 = w >>> 8 &&& 0xF := by
    ext i hi
    interval_cases i <;> simp
  have hlow' : w &&& 0xFFF &&& 0xFF = w &&& 0xFF := by
    ext i hi
    interval_cases i <;> simp
  have hw : w &&& (0xFFF : BitVec 16) = (w >>> 8 &&& 0xF) <<< 8 ||| w &&& 0xFF := by
    ext i hi
    interval_cases i <;> simp
  constructor
  · intro heq
    rw [← hhigh', ← hlow', heq]
    exact ⟨hhigh.symm, hlow.symm⟩
  · rintro ⟨ho, hb⟩
    rw [hw, ← ho, ← hb]

theorem jun_iff (s : Mcs4) :
    (((slot s 0).setWidth 4).setWidth 16 <<< 8 ||| nextPc (slot s 0)) &&& (0xFFF : BitVec 16) =
      (opa s).setWidth 16 <<< 8 ||| (arg s).setWidth 16 ↔
    (opa s).setWidth 16 = slot s 0 &&& (0xF : BitVec 16) ||| slot s 0 >>> 8 ∧
      (arg s).setWidth 16 = nextPc (slot s 0) &&& 0xFF := by
  have hhigh : ∀ pc n : BitVec 16, pc &&& 0xFFF = pc → n &&& 0xF00 = pc &&& 0xF00 →
      ((pc.setWidth 4).setWidth 16 <<< 8 ||| n) >>> 8 &&& (0xF : BitVec 16) =
        pc &&& (0xF : BitVec 16) ||| pc >>> 8 := by
    intro pc n hpc hn
    have hn' : n >>> 8 &&& (0xF : BitVec 16) = (n &&& 0xF00) >>> 8 := by
      ext i hi
      interval_cases i <;> simp
    have hpc' : pc >>> 8 = (pc &&& 0xF00) >>> 8 := by
      rw [← hpc]
      ext i hi
      interval_cases i <;> simp
    have hfirst : ((pc.setWidth 4).setWidth 16 <<< 8 ||| n) >>> 8 &&& (0xF : BitVec 16) =
        pc &&& (0xF : BitVec 16) ||| n >>> 8 &&& (0xF : BitVec 16) := by
      ext i hi
      interval_cases i <;> simp
    rw [hfirst, hn', hn, ← hpc']
  have hlow : ∀ pc n : BitVec 16,
      ((pc.setWidth 4).setWidth 16 <<< 8 ||| n) &&& 0xFF = n &&& 0xFF := by
    intro pc n
    ext i hi
    interval_cases i <;> simp
  rw [address_eq_iff, hhigh _ _ (slot_mask s 0) (nextPc_page _), hlow]

/-- A byte is its two halves. -/
theorem byte_ext {b b' : Byte} (hhi : (b >>> 4).setWidth 4 = (b' >>> 4).setWidth 4)
    (hlo : b.setWidth 4 = b'.setWidth 4) : b = b' := by
  have hhalves : ∀ c : Byte,
      ((c >>> 4).setWidth 4).setWidth 8 <<< 4 ||| (c.setWidth 4).setWidth 8 = c := by decide
  rw [← hhalves b, hhi, hlo, hhalves]

theorem fin_iff (s : Mcs4) : (∀ i, i < 16 → reg s i =
    if i = 2 * pairOf (instruction s) then (indirect s >>> 4).setWidth 4
    else if i = 2 * pairOf (instruction s) + 1 then (indirect s).setWidth 4 else reg s i) ↔
      indirect s = pairValue s := by
  have hpair := pairOf_lt (instruction s)
  have hwidth : ∀ b : Byte, (b &&& 0xF).setWidth 4 = b.setWidth 4 := by decide
  obtain ⟨hhi, hlo⟩ := regPair_halves s (pairOf (instruction s))
  rw [hwidth] at hlo
  constructor
  · intro hregs
    have hregs₀ := hregs (2 * pairOf (instruction s)) (by omega)
    have hregs₁ := hregs (2 * pairOf (instruction s) + 1) (by omega)
    rw [if_pos rfl, ← hhi] at hregs₀
    rw [if_neg (by omega), if_pos rfl, ← hlo] at hregs₁
    exact byte_ext hregs₀.symm hregs₁.symm
  · intro heq i _
    rw [heq]
    split_ifs with h₀ h₁
    · rw [h₀]
      exact hhi.symm
    · rw [h₁]
      exact hlo.symm
    · rfl

/-! ## The instructions -/

/-- The handlers that transfer control, and `FIN`. -/
def transfers : List Op := [.jcn, .jun, .jin, .isz, .fin]

/-- A jump leaves the registers alone. -/
theorem transferred_iff_pc (hop : op s = .jcn ∨ op s = .jun ∨ op s = .jin)
    (hreg : ∀ i, i < 16 → reg s' i = reg s i) : Transferred s s' ↔ slot s' 0 = targetPc s := by
  have hregs : ∀ i, targetReg s i = reg s i := by
    intro i
    unfold targetReg
    rcases hop with hop | hop | hop
    · rw [hop]
    · rw [hop]
    · rw [hop]
  exact ⟨Transferred.pc, fun hpc => ⟨hpc, fun i hi => (hreg i hi).trans (hregs i).symm⟩⟩

theorem jcn_transferred (hop : op s = .jcn) :
    ∃ s', step h s = some ((), s') ∧ (Transferred s s' ↔ Honest s) := by
  have hpc : targetPc s = if Jumps s then onPage s (arg s) else following s := by
    unfold targetPc
    rw [hop]
  have hhonest : Honest s ↔ HonestJcn s := by
    unfold Honest
    rw [hop]
  have hslot : slot (if Branches s then setSlot (incremented (tmpSet s)) 0 ((arg s).setWidth 16)
      else incremented (incremented (tmpSet s))) 0 =
        if Branches s then (arg s).setWidth 16 else following s := by
    split_ifs
    · rw [slot_setSlot_self, byte_mask]
    · rw [slot_incremented_zero, slot_incremented_zero]
      rfl
  rw [step_eq, hop]
  refine ⟨_, opJcn_eq s, ?_⟩
  rw [transferred_iff_pc (.inl hop), hslot, hpc, jcn_iff, hhonest]
  intro i hi
  split_ifs
  · rw [reg_setSlot hi, reg_incremented hi]
    rfl
  · rw [reg_incremented hi, reg_incremented hi]
    rfl

theorem jun_transferred (hop : op s = .jun) :
    ∃ s', step h s = some ((), s') ∧ (Transferred s s' ↔ Honest s) := by
  have hpc : targetPc s = (opa s).setWidth 16 <<< 8 ||| (arg s).setWidth 16 := by
    unfold targetPc
    rw [hop]
  rw [step_eq, hop]
  refine ⟨_, opJun_eq s, ?_⟩
  rw [transferred_iff_pc (.inr (.inl hop)), slot_setSlot_self, hpc, jun_iff]
  · unfold Honest
    rw [hop]
  · intro i hi
    rw [reg_setSlot hi, reg_incremented hi]
    rfl

theorem jin_transferred (hop : op s = .jin) :
    ∃ s', step h s = some ((), s') ∧ (Transferred s s' ↔ Honest s) := by
  have hpc : targetPc s = onPage s (pairValue s) := by
    unfold targetPc
    rw [hop]
  have htarget : jinTarget s &&& 0xFFF = onPage s (regPair s (jinPair s)) := page_or_mask _ _
  rw [step_eq, hop]
  refine ⟨_, opJin_eq s, ?_⟩
  rw [transferred_iff_pc (.inr (.inr hop)), slot_setSlot_self, hpc, htarget, onPage_inj]
  · unfold Honest
    rw [hop]
  · exact fun i hi => reg_setSlot hi s _

theorem fin_transferred (hop : op s = .fin) :
    ∃ s', step h s = some ((), s') ∧ (Transferred s s' ↔ Honest s) := by
  have hpc : targetPc s = nextPc (slot s 0) := by
    unfold targetPc
    rw [hop]
  have hregs : ∀ i, targetReg s i =
      if i = 2 * pairOf (instruction s) then (indirect s >>> 4).setWidth 4
      else if i = 2 * pairOf (instruction s) + 1 then (indirect s).setWidth 4 else reg s i := by
    intro i
    unfold targetReg
    rw [hop]
  have hhonest : Honest s ↔ indirect s = pairValue s := by
    unfold Honest
    rw [hop]
  rw [step_eq, hop]
  refine ⟨_, opFin_eq s, ?_⟩
  rw [hhonest, ← fin_iff]
  constructor
  · intro ht i hi
    rw [← hregs i, ← ht.regs i hi, reg_incremented hi]
    rfl
  · intro hpair
    refine ⟨?_, fun i hi => ?_⟩
    · rw [slot_incremented_zero, hpc]
      rfl
    · rw [reg_incremented hi, hregs i]
      exact hpair i hi

/-- **`ISZ`** does what its comment says. -/
theorem isz_transferred (hop : op s = .isz) :
    ∃ s', step h s = some ((), s') ∧ Transferred s s' := by
  have hpc : targetPc s =
      if reg s (opa s).toNat + 1 ≠ 0 then onPage s (arg s) else following s := by
    unfold targetPc
    rw [hop]
  have hregs : ∀ i, targetReg s i = if i = (opa s).toNat then reg s i + 1 else reg s i := by
    intro i
    unfold targetReg
    rw [hop]
  have hcounted : ∀ i, i < 16 → reg (counted s) i = targetReg s i := by
    intro i hi
    rw [counted, reg_setReg, reg_incremented hi, hregs]
    split_ifs with heq
    · rw [heq]
    · rfl
  rw [step_eq, hop]
  refine ⟨_, opIsz_eq s, ?_, fun i hi => ?_⟩
  · rw [hpc]
    split_ifs
    · rw [slot_setSlot_self, nextPc_page]
      exact page_or_mask _ _
    · rw [slot_incremented_zero, slot_counted]
      rfl
  · rw [← hcounted i hi]
    split_ifs
    · exact reg_setSlot hi _ _
    · exact reg_incremented hi _

theorem transferred_iff_honest (hop : op s ∈ transfers) :
    ∃ s', step h s = some ((), s') ∧ (Transferred s s' ↔ Honest s) := by
  simp only [transfers, List.mem_cons, List.not_mem_nil, or_false] at hop
  rcases hop with hop | hop | hop | hop | hop
  · exact jcn_transferred hop
  · exact jun_transferred hop
  · exact jin_transferred hop
  · obtain ⟨s', hs', ht⟩ := isz_transferred (h := h) hop
    refine ⟨s', hs', iff_of_true ht ?_⟩
    unfold Honest
    rw [hop]
    exact trivial
  · exact fin_transferred hop

/-- **An instruction goes where its comment says** if and only if it is honest. -/
theorem transfer_iff (h : Host) (hop : op s ∈ transfers) :
    (∃ s', step h s = some ((), s') ∧ Transferred s s') ↔ Honest s := by
  obtain ⟨s', hs', hiff⟩ := transferred_iff_honest (h := h) hop
  constructor
  · rintro ⟨s'', hs'', ht⟩
    obtain rfl := (Prod.mk.inj (Option.some.inj (hs'.symm.trans hs''))).2
    exact hiff.mp ht
  · exact fun hh => ⟨s', hs', hiff.mpr hh⟩

/-- `JUN 0x123`. -/
def junRom : Nat → Byte
  | 0 => 0x41
  | 1 => 0x23
  | _ => 0

/-- The `JUN` at 0. -/
theorem transfer_junRom : (∃ s', step ⟨true, fun _ _ => 0⟩ (init junRom) = some ((), s') ∧
    Transferred (init junRom) s') ↔ Honest (init junRom) :=
  transfer_iff ⟨true, fun _ _ => 0⟩ (by decide)

/-- **It goes to 1.** -/
theorem jun_astray : ¬∀ (h : Host) (s : Mcs4), op s ∈ transfers →
    ∃ s', step h s = some ((), s') ∧ Transferred s s' := by
  intro hall
  have hop : op (init junRom) = .jun := by decide
  obtain ⟨s', hs', ht⟩ := hall ⟨true, fun _ _ => 0⟩ (init junRom) (by decide)
  obtain ⟨s'', hs'', hiff⟩ := jun_transferred (h := ⟨true, fun _ _ => 0⟩) hop
  obtain rfl := (Prod.mk.inj (Option.some.inj (hs'.symm.trans hs''))).2
  have hhonest := hiff.mp ht
  unfold Honest at hhonest
  rw [hop] at hhonest
  exact absurd hhonest.1 (by decide)

end Quals2017.Faggin
