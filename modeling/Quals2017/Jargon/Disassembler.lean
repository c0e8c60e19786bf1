import Quals2017.Jargon.Machine

/-!
# The disassembler and the interpreter agree (`jargon/jargon.c:229-428`)

`push_disas` and `caj_disas` are copies of the decoding in `push_stack` and `compare_and_jump`,
with a position that is an `unsigned char`: it counts modulo 256 by overflow. `Disassemble` counts
with an `int` between instructions, so an instruction without an operand in the last position is
followed by position 256, where its loop ends; the interpreter goes on at position 0.

* `interpreted` puts together what the interpreter grabs for one instruction, `disasRound` what the
  disassembler prints for it.
* `disasRound_eq`: the two are the same but for that one position.
* `Executes` and `step_executes`: a round of the interpreter does what its decoding says.
* **`disassembler_agrees`**: at every position of every code.
* `listing_executes`: a program does, at the position of a line of the listing, what the line says.
-/

namespace Quals2017.Jargon

open Quals2017.Lib

/-- A decoded instruction: where it begins, its opcode, its operand and the position behind it. -/
structure Decoded where
  pos : Nat
  opcode : Fin 16
  operand : Option UInt8
  next : Nat
  deriving DecidableEq

/-! ## The disassembler -/

/-- `Code[Pos / 2]`, at an `unsigned char` position. -/
def cellAt (code : Code) (pos : UInt8) : UInt8 := byteAt code pos.toNat pos.toNat_lt

/-- `Opcode`, as `push_disas` and `caj_disas` get it. -/
def opcodeAt (code : Code) (pos : UInt8) : Fin 16 :=
  toOpcode (if pos &&& 1 = 0 then cellAt code pos >>> 4 else cellAt code pos)

/-- `push_disas`. -/
def pushDisas (code : Code) (pos : UInt8) : Decoded :=
  let start := pos.toNat
  let opcode := opcodeAt code pos
  let pos := pos + 1
  let bits := (if pos &&& 1 = 0 then cellAt code pos >>> 4 else cellAt code pos) &&& 0x0f
  let pos := pos + 1
  ⟨start, opcode, some (flip4 bits), pos.toNat⟩

/-- `caj_disas`. -/
def cajDisas (code : Code) (pos : UInt8) : Decoded :=
  let start := pos.toNat
  let opcode := opcodeAt code pos
  let pos := pos + 1
  let bits1 := cellAt code pos
  let pos := pos + 1
  let bits1 :=
    if pos &&& 1 = 0 then ((bits1 &&& 0x0f) <<< 4) ||| ((cellAt code pos >>> 4) &&& 0x0f) else bits1
  let pos := pos + 1
  ⟨start, opcode, some (flip8 bits1), pos.toNat⟩

/-- `Functions[i].disas`. -/
def disas (op : Fin 16) : Option (Code → UInt8 → Decoded) :=
  if op = 11 then some pushDisas else if op = 15 then some cajDisas else none

/-- One round of `Disassemble`, at `i`. -/
def disasRound (code : Code) (i : Nat) (h : i < positions) : Decoded :=
  let byte := byteAt code i h
  let opcode := toOpcode (if i &&& 1 = 0 then byte >>> 4 else byte)
  match disas opcode with
  | some d => d code (UInt8.ofNat i)
  | none => ⟨i, opcode, none, i + 1⟩

/-- `for (i = 0; i < Len;)` of `Disassemble`, from `i` on; `none` is a loop that has not ended. -/
def disassembleLoop (code : Code) (len : Nat) (hlen : len ≤ positions) :
    Nat → Nat → Option (List Decoded)
  | 0, _ => none
  | fuel + 1, i =>
    if h : i < len then do
      let d := disasRound code i (Nat.lt_of_lt_of_le h hlen)
      let lines ← disassembleLoop code len hlen fuel d.next
      some (d :: lines)
    else some []

/-! ## What the interpreter decodes -/

/-- What the interpreter grabs for the instruction at `CodePos`: the opcode, the operand that
`push_stack` pushes or `compare_and_jump` may jump to, and the position behind it. -/
def interpreted (m : Machine) : Decoded :=
  let op := opEntry m
  let m₁ := advance m
  if op = 11 then ⟨m.codePos, op, some (flip4 (grabBits m₁)), (advance m₁).codePos⟩
  else if op = 15 then
    ⟨m.codePos, op, some (grabJumpPos m₁).1, (grabJumpPos m₁).2.codePos⟩
  else ⟨m.codePos, op, none, m₁.codePos⟩

/-! ## The two copies -/

/-- The `unsigned char` of the disassembler stands where the interpreter's position is. -/
def Same (pos : UInt8) (m : Machine) : Prop := pos.toNat = m.codePos

theorem same_ofNat (m : Machine) : Same (UInt8.ofNat m.codePos) m :=
  UInt8.toNat_ofNat_of_lt' m.pos_lt

section Same

variable {pos : UInt8} {m : Machine} (h : Same pos m)

include h

theorem Same.cell : cellAt m.code pos = m.cell := by
  have h' : pos.toNat = m.codePos := h
  unfold cellAt Machine.cell
  simp only [h']

theorem Same.even : pos &&& 1 = 0 ↔ m.codePos &&& 1 = 0 := by
  rw [← UInt8.toNat_inj, UInt8.toNat_and, h]
  rfl

/-- Overflow and the remainder are the same step. -/
theorem Same.advance : Same (pos + 1) (advance m) := by
  have h' : pos.toNat = m.codePos := h
  show (pos + 1).toNat = (m.codePos + 1) % positions
  rw [UInt8.toNat_add, h']
  rfl

theorem Same.opcode : opcodeAt m.code pos = opEntry m := by
  unfold opcodeAt opEntry
  simp only [h.cell, h.even]

/-- `push_disas` is the decoding of `push_stack`. -/
theorem pushDisas_eq : pushDisas m.code pos = ⟨m.codePos, opEntry m,
    some (flip4 (grabBits (advance m))), (advance (advance m)).codePos⟩ := by
  have h₁ := h.advance
  have h₂ := h₁.advance
  unfold pushDisas grabBits
  simp only [h.opcode, show cellAt m.code (pos + 1) = _ from h₁.cell, h₁.even,
    show pos.toNat = m.codePos from h, show (pos + 1 + 1).toNat = _ from h₂]

/-- `caj_disas` is the decoding of `compare_and_jump`. -/
theorem cajDisas_eq : cajDisas m.code pos = ⟨m.codePos, opEntry m,
    some (grabJumpPos (advance m)).1, (grabJumpPos (advance m)).2.codePos⟩ := by
  have h₁ := h.advance
  have h₂ := h₁.advance
  have h₃ := h₂.advance
  unfold cajDisas grabJumpPos
  simp only [h.opcode, show cellAt m.code (pos + 1) = _ from h₁.cell,
    show cellAt m.code (pos + 1 + 1) = _ from h₂.cell, h₂.even,
    show pos.toNat = m.codePos from h, show (pos + 1 + 1 + 1).toNat = _ from h₃]

end Same

/-- **The disassembler decodes what the interpreter decodes**, modulo 256. -/
theorem disasRound_eq (m : Machine) : interpreted m =
    { disasRound m.code m.codePos m.pos_lt with
      next := (disasRound m.code m.codePos m.pos_lt).next % positions } := by
  have h := same_ofNat m
  have hlt : ∀ m : Machine, m.codePos % positions = m.codePos := fun m => Nat.mod_eq_of_lt m.pos_lt
  have hop : toOpcode (if m.codePos &&& 1 = 0 then byteAt m.code m.codePos m.pos_lt >>> 4
      else byteAt m.code m.codePos m.pos_lt) = opEntry m := rfl
  unfold interpreted disasRound disas
  simp only [hop]
  split_ifs with hpush hjump
  · simp only [pushDisas_eq h, hlt]
  · simp only [cajDisas_eq h, hlt]
  · rfl

/-- The position behind an instruction is 256 behind an instruction without an operand in the last
position, and below it everywhere else. -/
theorem disasRound_next (m : Machine) :
    if m.codePos = 255 ∧ (disasRound m.code m.codePos m.pos_lt).operand = none then
      (disasRound m.code m.codePos m.pos_lt).next = 256
    else (disasRound m.code m.codePos m.pos_lt).next < positions := by
  have h := same_ofNat m
  have hlt := m.pos_lt
  unfold disasRound disas
  simp only
  generalize toOpcode _ = op
  by_cases hpush : op = 11
  · simp only [if_pos hpush, pushDisas_eq h]
    rw [if_neg (by simp)]
    exact (advance (advance m)).pos_lt
  · by_cases hjump : op = 15
    · simp only [if_neg hpush, if_pos hjump, cajDisas_eq h]
      rw [if_neg (by simp)]
      exact (grabJumpPos (advance m)).2.pos_lt
    · simp only [if_neg hpush, if_neg hjump]
      unfold positions at hlt ⊢
      by_cases hpos : m.codePos = 255
      · rw [if_pos ⟨hpos, trivial⟩, hpos]
      · rw [if_neg fun h => hpos h.1]
        omega

/-! ## What the interpreter does with it -/

/-- The round from `m` to `m'` is that of the instruction `d`: `push_stack` pushes the operand,
`compare_and_jump` goes to it on a zero, and every other round ends behind the instruction. -/
structure Executes (m : Machine) (d : Decoded) (m' : Machine) : Prop where
  code : m'.code = m.code
  push : d.opcode = 11 → ∃ v, d.operand = some v ∧ m'.stack = v.toInt8 :: m.stack
  jump : d.opcode = 15 → ∃ v top, d.operand = some v ∧ m.stack = top :: m'.stack ∧
    m'.codePos = if top = 0 then v.toNat else d.next
  next : d.opcode ≠ 15 → m'.codePos = d.next

/-- What `compare_and_jump` grabs depends on the code and the position, not on the stack. -/
theorem grabJumpPos_congr {m₁ m₂ : Machine} (hc : m₂.code = m₁.code)
    (hp : m₂.codePos = m₁.codePos) : (grabJumpPos m₂).1 = (grabJumpPos m₁).1 ∧
      (grabJumpPos m₂).2 = { (grabJumpPos m₁).2 with stack := m₂.stack, stack_le := m₂.stack_le } := by
  obtain ⟨code, stack, hs, pos, hpos⟩ := m₂
  simp only at hc hp
  subst hc hp
  exact ⟨rfl, rfl⟩

/-- **A round of the interpreter** is that of the instruction it decodes. -/
theorem step_executes {env : Env} {m m' : Machine} (h : step env m = .ok m') :
    Executes m (interpreted m) m' := by
  unfold step at h
  by_cases hpush : opEntry m = 11
  · rw [hpush] at h
    obtain ⟨m₁, h₁, h⟩ := bind_eq_ok (show pushStack env (advance m) = .ok m' from h)
    obtain ⟨hs, hc, hp⟩ := push_ok h₁
    have hm : m' = advance m₁ := (Except.ok.inj h).symm
    rw [interpreted, if_pos hpush]
    refine ⟨by rw [hm]; exact hc, fun _ => ⟨_, rfl, by rw [hm]; exact hs⟩, fun hj => ?_, fun _ => ?_⟩
    · exact absurd (hpush.symm.trans hj) (by decide)
    · rw [hm]
      show (m₁.codePos + 1) % positions = _
      rw [hp]
      rfl
  · by_cases hjump : opEntry m = 15
    · rw [hjump] at h
      obtain ⟨⟨top, m₁⟩, h₁, h⟩ := bind_eq_ok (show compareAndJump env (advance m) = .ok m' from h)
      obtain ⟨hs, hc, hp⟩ := pop_ok h₁
      obtain ⟨hv, hm⟩ := grabJumpPos_congr hc hp
      simp only [hv, hm] at h
      rw [interpreted, if_neg hpush, if_pos hjump]
      split_ifs at h with htop
      all_goals
        rw [← Except.ok.inj h]
        refine ⟨rfl, fun hj => absurd hj hpush, fun _ => ⟨_, top, rfl, hs, ?_⟩,
          fun hj => absurd hjump hj⟩
      · rw [if_pos htop]
      · rw [if_neg htop]
    · obtain ⟨hc, hp⟩ := func_keeps hpush hjump _ _ _ h
      rw [interpreted, if_neg hpush, if_neg hjump]
      exact ⟨hc, fun hj => absurd hj hpush, fun hj => absurd hj hjump, fun _ => hp⟩

/-- **The disassembler and the interpreter agree** at every position: on the opcode, on the operand,
and on the position of the next instruction but for an instruction without an operand in the last
position. What they agree on is what a round of the interpreter does. -/
theorem disassembler_agrees (env : Env) (m : Machine) :
    (interpreted m).opcode = (disasRound m.code m.codePos m.pos_lt).opcode ∧
    (interpreted m).operand = (disasRound m.code m.codePos m.pos_lt).operand ∧
    (if m.codePos = 255 ∧ (disasRound m.code m.codePos m.pos_lt).operand = none then
      (disasRound m.code m.codePos m.pos_lt).next = 256 ∧ (interpreted m).next = 0
    else (interpreted m).next = (disasRound m.code m.codePos m.pos_lt).next) ∧
    ∀ m', step env m = .ok m' → Executes m (interpreted m) m' := by
  have hnext := disasRound_next m
  refine ⟨by rw [disasRound_eq], by rw [disasRound_eq], ?_, fun m' h => step_executes h⟩
  rw [disasRound_eq]
  split_ifs at hnext ⊢ with hlast
  · exact ⟨hnext, by rw [hnext]; rfl⟩
  · exact Nat.mod_eq_of_lt hnext

/-- `shareware` all over the code, with one entry to duplicate, at the last position. -/
def lastShareware : Machine :=
  ⟨Vector.replicate 128 0xdd, [1], by decide, 255, by decide⟩

/-- The disassembler goes on at position 256 and leaves its loop; the interpreter goes on at 0. -/
theorem disassembler_differs : ¬ ∀ env m m', step env m = .ok m' →
    interpreted m = disasRound m.code m.codePos m.pos_lt := by
  intro h
  obtain ⟨m', hm⟩ : ∃ m', step ⟨[], true⟩ lastShareware = .ok m' := ⟨_, rfl⟩
  exact absurd (congrArg Decoded.next (h _ _ _ hm)) (by decide)

/-! ## The listing -/

theorem disasRound_pos (m : Machine) : (disasRound m.code m.codePos m.pos_lt).pos = m.codePos := by
  have h := congrArg Decoded.pos (disasRound_eq m)
  refine h.symm.trans ?_
  unfold interpreted
  simp only
  split_ifs <;> rfl

/-- A line of a listing is the round of the disassembler at its position. -/
theorem disassembleLoop_line {code : Code} {len : Nat} {hlen : len ≤ positions} :
    ∀ {fuel i : Nat} {lines : List Decoded}, disassembleLoop code len hlen fuel i = some lines →
      ∀ d ∈ lines, ∃ h : d.pos < positions, d = disasRound code d.pos h
  | 0, _, _, h => absurd h (by simp [disassembleLoop])
  | fuel + 1, i, lines, h => by
    rw [disassembleLoop] at h
    split_ifs at h with hi
    · obtain ⟨rest, hrest, hl⟩ := Option.bind_eq_some_iff.mp h
      rw [← Option.some.inj hl]
      intro d hd
      rcases List.mem_cons.mp hd with rfl | hd
      · have hpos := disasRound_pos
          ⟨code, [], Nat.zero_le _, i, Nat.lt_of_lt_of_le hi hlen⟩
        refine ⟨hpos.trans_lt (Nat.lt_of_lt_of_le hi hlen), ?_⟩
        congr 1
        exact hpos.symm
      · exact disassembleLoop_line hrest d hd
    · rw [← Option.some.inj h]
      exact fun d hd => absurd hd (by simp)

/-- The machines a program reaches. -/
inductive Reaches (env : Env) (m : Machine) : Machine → Prop where
  | refl : Reaches env m m
  | step {m₁ m₂ : Machine} (h : Reaches env m m₁) (hs : step env m₁ = .ok m₂) : Reaches env m m₂

/-- A program does not change its code. -/
theorem reaches_code {env : Env} {m m' : Machine} (h : Reaches env m m') : m'.code = m.code := by
  induction h with
  | refl => rfl
  | step _ hs ih => exact (step_executes hs).code.trans ih

/-- **A listing tells the run**: whenever the program stands at the position of a line, its next
round executes the line. -/
theorem listing_executes {code : Code} {len : Nat} {hlen : len ≤ positions} {fuel : Nat}
    {lines : List Decoded} (hl : disassembleLoop code len hlen fuel 0 = some lines) {env : Env}
    {m m' : Machine} (hr : Reaches env (boot code) m) {d : Decoded} (hd : d ∈ lines)
    (hpos : m.codePos = d.pos) (hs : step env m = .ok m') :
    Executes m { d with next := d.next % positions } m' := by
  obtain ⟨hlt, hline⟩ := disassembleLoop_line hl d hd
  have hcode : m.code = code := reaches_code hr
  have hm := step_executes hs
  rw [disasRound_eq] at hm
  have heq : disasRound m.code m.codePos m.pos_lt = d := by
    refine Eq.trans ?_ hline.symm
    congr 1
  rwa [heq] at hm

end Quals2017.Jargon
