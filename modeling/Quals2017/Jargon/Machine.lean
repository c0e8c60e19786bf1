import Mathlib.Algebra.Order.Ring.Nat
import Mathlib.Data.Fintype.Basic
import Quals2017.Lib.Outcome
import Mathlib.Tactic.FinCases
import Mathlib.Tactic.SplitIfs

/-!
# The interpreter (`jargon/jargon.c:24-309`, `:540-561`)

128 bytes of code are 256 positions of four bits, the high half of a byte first. An instruction is
an opcode of one position, behind which `push_stack` has an operand of one position and
`compare_and_jump` one of two. The operand's bits are the other way round. `CodePos` counts
positions modulo 256, so an operand may begin in the low half of a byte and may lie round the end
of the code.

`Machine` carries the two bounds the code keeps: `StackPos` is at most 256 and `CodePos` below 256.
`Stop` is a call of `die`, or the fault of a division by zero. The disassembler's half of the table
of functions is in `Disassembler.lean`.
-/

namespace Quals2017.Jargon

open Quals2017.Lib

/-- `unsigned char Code[128]`. -/
abbrev Code := Vector UInt8 128

/-- `sizeof(Code) * 2`. -/
def positions : Nat := 128 * 2

/-- `Code[pos / 2]`. -/
def byteAt (code : Code) (pos : Nat) (h : pos < positions) : UInt8 :=
  code.get ⟨pos / 2, Nat.div_lt_of_lt_mul (Nat.mul_comm 128 2 ▸ h)⟩

/-- The globals. `stack` holds the `StackPos` entries in use, the top first. -/
structure Machine where
  code : Code
  stack : List Int8
  stack_le : stack.length ≤ 256
  codePos : Nat
  pos_lt : codePos < positions

/-- How a program ends: `die` with its message, `ip` and stack, or a fault. -/
inductive Stop where
  | died (error : String) (codePos : Nat) (stack : List Int8)
  | fault
  deriving DecidableEq

/-- What lies outside the program: the bytes `read` delivers of the flag, and the operand of
`push(pop() - pop())` that the compiler evaluates first, which C leaves open. -/
structure Env where
  flag : List UInt8
  leftFirst : Bool

/-- `die`. -/
def die {α : Type} (error : String) (m : Machine) : Except Stop α :=
  .error (.died error m.codePos m.stack.reverse)

/-- `pop`. -/
def pop (m : Machine) : Except Stop (Int8 × Machine) :=
  match h : m.stack with
  | [] => die "Stack empty" m
  | v :: stack =>
    .ok (v, { m with
      stack
      stack_le := by
        have := m.stack_le
        rw [h, List.length_cons] at this
        omega })

/-- `push`. -/
def push (v : Int8) (m : Machine) : Except Stop Machine :=
  if h : m.stack.length = 256 then die "Stack full" m
  else
    .ok { m with
      stack := v :: m.stack
      stack_le := by
        have := m.stack_le
        rw [List.length_cons]
        omega }

/-- `CodePos = (CodePos + 1) % (sizeof(Code) * 2)`. -/
def advance (m : Machine) : Machine :=
  { m with codePos := (m.codePos + 1) % positions, pos_lt := Nat.mod_lt _ (by decide) }

/-- `Code[CodePos / 2]`. -/
def Machine.cell (m : Machine) : UInt8 := byteAt m.code m.codePos m.pos_lt

/-! ## The functions -/

/-- `push(pop() op pop())`. -/
def math (op : Int8 → Int8 → Except Stop Int8) (env : Env) (m : Machine) : Except Stop Machine := do
  let (a, m) ← pop m
  let (b, m) ← pop m
  let v ← (if env.leftFirst then op a b else op b a)
  push v m

/-- `math_add`. -/
def mathAdd : Env → Machine → Except Stop Machine := math fun a b => .ok (a + b)

/-- `math_sub`. -/
def mathSub : Env → Machine → Except Stop Machine := math fun a b => .ok (a - b)

/-- `math_mul`. -/
def mathMul : Env → Machine → Except Stop Machine := math fun a b => .ok (a * b)

/-- `math_mod`: the operands are signed, and nothing is tested. -/
def mathMod : Env → Machine → Except Stop Machine :=
  math fun a b => if b = 0 then .error .fault else .ok (a % b)

/-- `math_div`: the operands are unsigned, in the order they are popped. -/
def mathDiv (_ : Env) (m : Machine) : Except Stop Machine := do
  let (value1, m) ← pop m
  let (value2, m) ← pop m
  if value2 = 0 then die "Divide by 0" m else push (value1.toUInt8 / value2.toUInt8).toInt8 m

/-- `math_and`. -/
def mathAnd : Env → Machine → Except Stop Machine := math fun a b => .ok (a &&& b)

/-- `math_or`. -/
def mathOr : Env → Machine → Except Stop Machine := math fun a b => .ok (a ||| b)

/-- `math_xor`. -/
def mathXor : Env → Machine → Except Stop Machine := math fun a b => .ok (a ^^^ b)

/-- `math_neg`. -/
def mathNeg (_ : Env) (m : Machine) : Except Stop Machine := do
  let (v, m) ← pop m
  push (-v) m

/-- `halt`. -/
def halt (_ : Env) (m : Machine) : Except Stop Machine := die "halted" m

/-- `my_syscall`: 42 dumps the flag onto the stack. -/
def mySyscall (env : Env) (m : Machine) : Except Stop Machine := do
  let (sysCallNum, m) ← pop m
  if sysCallNum = 42 then env.flag.foldlM (fun m b => push b.toInt8 m) m else die "" m

/-- `pop_stack`. -/
def popStack (_ : Env) (m : Machine) : Except Stop Machine := do
  let (_, m) ← pop m
  .ok m

/-- `dupe_stack`. -/
def dupeStack (_ : Env) (m : Machine) : Except Stop Machine := do
  let (value, m) ← pop m
  let m ← push value m
  push value m

/-- `swap_stack`. -/
def swapStack (_ : Env) (m : Machine) : Except Stop Machine := do
  let (value1, m) ← pop m
  let (value2, m) ← pop m
  let m ← push value1 m
  push value2 m

/-- Four bits, the other way round. -/
def flip4 (bits : UInt8) : UInt8 :=
  ((bits &&& 0x08) >>> 3) ||| ((bits &&& 0x04) >>> 1) ||| ((bits &&& 0x02) <<< 1) |||
    ((bits &&& 0x01) <<< 3)

/-- Eight bits, the other way round. -/
def flip8 (bits : UInt8) : UInt8 :=
  ((bits &&& 0x80) >>> 7) ||| ((bits &&& 0x40) >>> 5) ||| ((bits &&& 0x20) >>> 3) |||
    ((bits &&& 0x10) >>> 1) ||| ((bits &&& 0x08) <<< 1) ||| ((bits &&& 0x04) <<< 3) |||
    ((bits &&& 0x02) <<< 5) ||| ((bits &&& 0x01) <<< 7)

/-- The four bits at `CodePos`: the high half of the byte at an even position. -/
def grabBits (m : Machine) : UInt8 :=
  (if m.codePos &&& 1 = 0 then m.cell >>> 4 else m.cell) &&& 0x0f

/-- `push_stack`: the position moves on after the push. -/
def pushStack (_ : Env) (m : Machine) : Except Stop Machine := do
  let m ← push (flip4 (grabBits m)).toInt8 m
  .ok (advance m)

/-- The eight bits `compare_and_jump` grabs, and the position behind them. -/
def grabJumpPos (m : Machine) : UInt8 × Machine :=
  let bits1 := m.cell
  let m := advance m
  let bits1 :=
    if m.codePos &&& 1 = 0 then ((bits1 &&& 0x0f) <<< 4) ||| ((m.cell >>> 4) &&& 0x0f) else bits1
  (flip8 bits1, advance m)

/-- `compare_and_jump`. -/
def compareAndJump (_ : Env) (m : Machine) : Except Stop Machine := do
  let (compare, m) ← pop m
  let (jumpPos, m) := grabJumpPos m
  if compare = 0 then .ok { m with codePos := jumpPos.toNat, pos_lt := jumpPos.toNat_lt }
  else .ok m

/-! ## The loop of `main` -/

/-- The low four bits, as an index of `Functions`. -/
def toOpcode (b : UInt8) : Fin 16 :=
  ⟨(b &&& 0x0f).toNat, by
    rw [UInt8.toNat_and]
    exact Nat.lt_of_le_of_lt Nat.and_le_right (by decide)⟩

theorem neZero_opcodes : NeZero 16 := ⟨by decide⟩

/-- `Functions[i].func`. -/
def func : Fin 16 → Env → Machine → Except Stop Machine :=
  (#v[halt, mathAdd, mathSub, mathMul, mathDiv, mathAnd, mathOr, mathXor, mathNeg, mathMod,
    mySyscall, pushStack, popStack, dupeStack, swapStack, compareAndJump] : Vector _ 16).get

/-- The opcode at `CodePos`. -/
def opEntry (m : Machine) : Fin 16 :=
  toOpcode (if m.codePos &&& 1 = 0 then m.cell >>> 4 else m.cell)

/-- One round of the loop. -/
def step (env : Env) (m : Machine) : Except Stop Machine := func (opEntry m) env (advance m)

/-- `for (LoopCount = 0; LoopCount < 1000; LoopCount++)`, with the given number of rounds left. -/
def runLoop (env : Env) : Nat → Machine → Stop
  | 0, m => .died "1000 opcodes executed" m.codePos m.stack.reverse
  | n + 1, m =>
    match step env m with
    | .error s => s
    | .ok m => runLoop env n m

/-- The machine `main` starts on the code it has read. -/
def boot (code : Code) : Machine := ⟨code, [], Nat.zero_le _, 0, by decide⟩

/-! ## What a function leaves alone -/

/-- The functions without an operand leave the code and the position alone. -/
def Keeps (f : Env → Machine → Except Stop Machine) : Prop :=
  ∀ env m m', f env m = .ok m' → m'.code = m.code ∧ m'.codePos = m.codePos

theorem pop_ok {m m' : Machine} {v : Int8} (h : pop m = .ok (v, m')) :
    m.stack = v :: m'.stack ∧ m'.code = m.code ∧ m'.codePos = m.codePos := by
  unfold pop at h
  split at h
  · exact absurd h (by simp [die])
  · rename_i hs
    obtain ⟨rfl, rfl⟩ := Prod.mk.inj (Except.ok.inj h)
    exact ⟨hs, rfl, rfl⟩

theorem push_ok {v : Int8} {m m' : Machine} (h : push v m = .ok m') :
    m'.stack = v :: m.stack ∧ m'.code = m.code ∧ m'.codePos = m.codePos := by
  unfold push at h
  split_ifs at h
  · exact absurd h (by simp [die])
  · rw [← Except.ok.inj h]
    exact ⟨rfl, rfl, rfl⟩

theorem math_keeps (op : Int8 → Int8 → Except Stop Int8) : Keeps (math op) := by
  intro env m m' h
  obtain ⟨⟨a, m₁⟩, h₁, h⟩ := bind_eq_ok h
  obtain ⟨⟨b, m₂⟩, h₂, h⟩ := bind_eq_ok h
  obtain ⟨v, -, h⟩ := bind_eq_ok h
  obtain ⟨-, hc₁, hp₁⟩ := pop_ok h₁
  obtain ⟨-, hc₂, hp₂⟩ := pop_ok h₂
  obtain ⟨-, hc₃, hp₃⟩ := push_ok h
  exact ⟨hc₃.trans (hc₂.trans hc₁), hp₃.trans (hp₂.trans hp₁)⟩

theorem mathDiv_keeps : Keeps mathDiv := by
  intro env m m' h
  obtain ⟨⟨a, m₁⟩, h₁, h⟩ := bind_eq_ok h
  obtain ⟨⟨b, m₂⟩, h₂, h⟩ := bind_eq_ok h
  obtain ⟨-, hc₁, hp₁⟩ := pop_ok h₁
  obtain ⟨-, hc₂, hp₂⟩ := pop_ok h₂
  simp only at h
  split_ifs at h
  · exact absurd h (by simp [die])
  · obtain ⟨-, hc₃, hp₃⟩ := push_ok h
    exact ⟨hc₃.trans (hc₂.trans hc₁), hp₃.trans (hp₂.trans hp₁)⟩

theorem mathNeg_keeps : Keeps mathNeg := by
  intro env m m' h
  obtain ⟨⟨v, m₁⟩, h₁, h⟩ := bind_eq_ok h
  obtain ⟨-, hc₁, hp₁⟩ := pop_ok h₁
  obtain ⟨-, hc₂, hp₂⟩ := push_ok h
  exact ⟨hc₂.trans hc₁, hp₂.trans hp₁⟩

theorem halt_keeps : Keeps halt := fun _ _ _ h => absurd h (by simp [halt, die])

theorem pushAll_keeps : ∀ {bytes : List UInt8} {m m' : Machine},
    bytes.foldlM (fun m b => push b.toInt8 m) m = .ok m' →
      m'.code = m.code ∧ m'.codePos = m.codePos
  | [], m, m', h => Except.ok.inj h ▸ ⟨rfl, rfl⟩
  | b :: bytes, m, m', h => by
    rw [List.foldlM_cons] at h
    obtain ⟨m₁, h₁, h⟩ := bind_eq_ok h
    obtain ⟨-, hc₁, hp₁⟩ := push_ok h₁
    obtain ⟨hc, hp⟩ := pushAll_keeps h
    exact ⟨hc.trans hc₁, hp.trans hp₁⟩

theorem mySyscall_keeps : Keeps mySyscall := by
  intro env m m' h
  obtain ⟨⟨v, m₁⟩, h₁, h⟩ := bind_eq_ok h
  obtain ⟨-, hc₁, hp₁⟩ := pop_ok h₁
  simp only at h
  split_ifs at h
  · obtain ⟨hc, hp⟩ := pushAll_keeps h
    exact ⟨hc.trans hc₁, hp.trans hp₁⟩
  · exact absurd h (by simp [die])

theorem popStack_keeps : Keeps popStack := by
  intro env m m' h
  obtain ⟨⟨v, m₁⟩, h₁, h⟩ := bind_eq_ok h
  rw [← Except.ok.inj h]
  exact (pop_ok h₁).2

theorem dupeStack_keeps : Keeps dupeStack := by
  intro env m m' h
  obtain ⟨⟨v, m₁⟩, h₁, h⟩ := bind_eq_ok h
  obtain ⟨m₂, h₂, h⟩ := bind_eq_ok h
  obtain ⟨-, hc₁, hp₁⟩ := pop_ok h₁
  obtain ⟨-, hc₂, hp₂⟩ := push_ok h₂
  obtain ⟨-, hc₃, hp₃⟩ := push_ok h
  exact ⟨hc₃.trans (hc₂.trans hc₁), hp₃.trans (hp₂.trans hp₁)⟩

theorem swapStack_keeps : Keeps swapStack := by
  intro env m m' h
  obtain ⟨⟨a, m₁⟩, h₁, h⟩ := bind_eq_ok h
  obtain ⟨⟨b, m₂⟩, h₂, h⟩ := bind_eq_ok h
  obtain ⟨m₃, h₃, h⟩ := bind_eq_ok h
  obtain ⟨-, hc₁, hp₁⟩ := pop_ok h₁
  obtain ⟨-, hc₂, hp₂⟩ := pop_ok h₂
  obtain ⟨-, hc₃, hp₃⟩ := push_ok h₃
  obtain ⟨-, hc₄, hp₄⟩ := push_ok h
  exact ⟨hc₄.trans (hc₃.trans (hc₂.trans hc₁)), hp₄.trans (hp₃.trans (hp₂.trans hp₁))⟩

/-- **Fourteen functions keep the position**: all but `push_stack` and `compare_and_jump`. -/
theorem func_keeps {op : Fin 16} (hpush : op ≠ 11) (hjump : op ≠ 15) : Keeps (func op) := by
  fin_cases op
  · exact halt_keeps
  · exact show Keeps mathAdd from math_keeps _
  · exact show Keeps mathSub from math_keeps _
  · exact show Keeps mathMul from math_keeps _
  · exact mathDiv_keeps
  · exact show Keeps mathAnd from math_keeps _
  · exact show Keeps mathOr from math_keeps _
  · exact show Keeps mathXor from math_keeps _
  · exact mathNeg_keeps
  · exact show Keeps mathMod from math_keeps _
  · exact mySyscall_keeps
  · exact absurd rfl hpush
  · exact popStack_keeps
  · exact dupeStack_keeps
  · exact swapStack_keeps
  · exact absurd rfl hjump

end Quals2017.Jargon
