import Mathlib.Data.List.Basic
import Quals2017.Jargon.Machine
import Quals2017.Lib.Related

/-!
# The interpreter on its own array (`jargon/jargon.c:24-309`, `:540-561`)

`Stack` is an array of 256 and `StackPos` an `unsigned int`. `Globals` are the globals as the code
has them, with every access to `Stack` checked: one that lies outside ends the run in
`Trap.outside`. The functions are those of `Machine.lean`, on the array.

* `Holds`: the array and `StackPos` hold the stack of a `Machine`.
* `step_related`, `runLoop_eq`: the two interpreters do the same, so that no access lies outside.
* `stop_of_step`: a round stops with one of the messages of `die`, or it divides by zero.
* **`runs_end_in_die_iff`**: every run keeps inside the array, and it ends in `die` exactly when no
  round of it is a `math_mod` on a divisor of zero, which `math_mod` does not test.
-/

namespace Quals2017.Jargon

open Quals2017.Lib

/-- The globals: `char Stack[256]`, `unsigned int StackPos`, the code and `CodePos`. -/
structure Globals where
  code : Code
  stack : Vector Int8 256
  stackPos : UInt32
  codePos : Nat
  pos_lt : codePos < positions

/-- How a run ends: as a program does, or at an access outside `Stack`. -/
inductive Trap where
  | stop (s : Stop)
  | outside
  deriving DecidableEq

namespace Globals

/-- `Stack[i]`. -/
def load (g : Globals) (i : Nat) : Except Trap Int8 :=
  if h : i < 256 then .ok g.stack[i] else .error .outside

/-- `Stack[i] = v`. -/
def store (g : Globals) (i : Nat) (v : Int8) : Except Trap Globals :=
  if h : i < 256 then .ok { g with stack := g.stack.set i v } else .error .outside

/-- `die`, which prints the entries below `StackPos`. -/
def die (error : String) (g : Globals) : Trap :=
  match (List.range g.stackPos.toNat).mapM g.load with
  | .ok stack => .stop (.died error g.codePos stack)
  | .error t => t

/-- `pop`. -/
def pop (g : Globals) : Except Trap (Int8 × Globals) :=
  if g.stackPos = 0 then .error (die "Stack empty" g)
  else do
    let g := { g with stackPos := g.stackPos - 1 }
    let v ← g.load g.stackPos.toNat
    .ok (v, g)

/-- `push`. -/
def push (v : Int8) (g : Globals) : Except Trap Globals :=
  if g.stackPos = 256 then .error (die "Stack full" g)
  else do
    let g ← g.store g.stackPos.toNat v
    .ok { g with stackPos := g.stackPos + 1 }

theorem nil_length_le : ([] : List Int8).length ≤ 256 := Nat.zero_le _

/-- What the code and `CodePos` are read as. -/
def front (g : Globals) : Machine := ⟨g.code, [], nil_length_le, g.codePos, g.pos_lt⟩

/-- `CodePos` as it is in `m`. -/
def goTo (g : Globals) (m : Machine) : Globals := { g with codePos := m.codePos, pos_lt := m.pos_lt }

/-! ## The functions -/

/-- `push(pop() op pop())`. -/
def math (op : Int8 → Int8 → Except Stop Int8) (env : Env) (g : Globals) : Except Trap Globals := do
  let (a, g) ← pop g
  let (b, g) ← pop g
  let v ← (if env.leftFirst then op a b else op b a).mapError .stop
  push v g

/-- `math_add`. -/
def mathAdd : Env → Globals → Except Trap Globals := math fun a b => .ok (a + b)

/-- `math_sub`. -/
def mathSub : Env → Globals → Except Trap Globals := math fun a b => .ok (a - b)

/-- `math_mul`. -/
def mathMul : Env → Globals → Except Trap Globals := math fun a b => .ok (a * b)

/-- `math_mod`. -/
def mathMod : Env → Globals → Except Trap Globals :=
  math fun a b => if b = 0 then .error .fault else .ok (a % b)

/-- `math_and`. -/
def mathAnd : Env → Globals → Except Trap Globals := math fun a b => .ok (a &&& b)

/-- `math_or`. -/
def mathOr : Env → Globals → Except Trap Globals := math fun a b => .ok (a ||| b)

/-- `math_xor`. -/
def mathXor : Env → Globals → Except Trap Globals := math fun a b => .ok (a ^^^ b)

/-- `math_div`. -/
def mathDiv (_ : Env) (g : Globals) : Except Trap Globals := do
  let (value1, g) ← pop g
  let (value2, g) ← pop g
  if value2 = 0 then .error (die "Divide by 0" g)
  else push (value1.toUInt8 / value2.toUInt8).toInt8 g

/-- `math_neg`. -/
def mathNeg (_ : Env) (g : Globals) : Except Trap Globals := do
  let (v, g) ← pop g
  push (-v) g

/-- `halt`. -/
def halt (_ : Env) (g : Globals) : Except Trap Globals := .error (die "halted" g)

/-- `my_syscall`. -/
def mySyscall (env : Env) (g : Globals) : Except Trap Globals := do
  let (sysCallNum, g) ← pop g
  if sysCallNum = 42 then env.flag.foldlM (fun g b => push b.toInt8 g) g else .error (die "" g)

/-- `pop_stack`. -/
def popStack (_ : Env) (g : Globals) : Except Trap Globals := do
  let (_, g) ← pop g
  .ok g

/-- `dupe_stack`. -/
def dupeStack (_ : Env) (g : Globals) : Except Trap Globals := do
  let (value, g) ← pop g
  let g ← push value g
  push value g

/-- `swap_stack`. -/
def swapStack (_ : Env) (g : Globals) : Except Trap Globals := do
  let (value1, g) ← pop g
  let (value2, g) ← pop g
  let g ← push value1 g
  push value2 g

/-- `push_stack`. -/
def pushStack (_ : Env) (g : Globals) : Except Trap Globals := do
  let g ← push (flip4 (grabBits g.front)).toInt8 g
  .ok (g.goTo (advance g.front))

/-- `compare_and_jump`. -/
def compareAndJump (_ : Env) (g : Globals) : Except Trap Globals := do
  let (compare, g) ← pop g
  let (jumpPos, m) := grabJumpPos g.front
  let g := g.goTo m
  if compare = 0 then .ok { g with codePos := jumpPos.toNat, pos_lt := jumpPos.toNat_lt } else .ok g

/-- `Functions[i].func`. -/
def func : Fin 16 → Env → Globals → Except Trap Globals :=
  (#v[halt, mathAdd, mathSub, mathMul, mathDiv, mathAnd, mathOr, mathXor, mathNeg, mathMod,
    mySyscall, pushStack, popStack, dupeStack, swapStack, compareAndJump] : Vector _ 16).get

/-- One round of the loop of `main`. -/
def step (env : Env) (g : Globals) : Except Trap Globals :=
  func (opEntry g.front) env (g.goTo (advance g.front))

/-- The interpreter. -/
def cpu (env : Env) : Lib.Machine Globals Trap Unit := ⟨step env, fun _ => ()⟩

/-- `for (LoopCount = 0; LoopCount < 1000; LoopCount++)`, with the given number of rounds. -/
def runLoop (env : Env) (n : Nat) (g : Globals) : Trap :=
  match (cpu env).run n g with
  | .ok g => die "1000 opcodes executed" g
  | .error t => t

theorem positions_pos : 0 < positions := by decide

/-- The globals `main` starts with, on the code it has read. -/
def boot (code : Code) : Globals := ⟨code, Vector.replicate 256 0, 0, 0, positions_pos⟩

end Globals

/-! ## The array holds the stack -/

/-- The array and `StackPos` hold the stack of `m`. -/
structure Holds (g : Globals) (m : Machine) : Prop where
  code : g.code = m.code
  codePos : g.codePos = m.codePos
  stackPos : g.stackPos.toNat = m.stack.length
  stack : ∀ (i : Nat) (h : i < 256), i < m.stack.length → m.stack.reverse[i]? = some g.stack[i]

theorem pop_nil {m : Machine} (hs : m.stack = []) : Jargon.pop m = Jargon.die "Stack empty" m := by
  unfold pop
  split
  · rfl
  · rename_i h
    exact absurd (hs.symm.trans h) (by simp)

theorem pop_cons {m : Machine} {v : Int8} {rest : List Int8} (hs : m.stack = v :: rest) :
    ∃ hle, pop m = .ok (v, { m with stack := rest, stack_le := hle }) := by
  unfold pop
  split
  · rename_i h
    exact absurd (hs.symm.trans h) (by simp)
  · rename_i h
    obtain ⟨rfl, rfl⟩ := List.cons.inj (hs.symm.trans h)
    have hle := m.stack_le
    rw [hs, List.length_cons] at hle
    exact ⟨(Nat.le_succ _).trans hle, rfl⟩

/-- The two interpreters stop in the same way. -/
abbrev Alike {α β : Type} (R : α → β → Prop) : Except Trap α → Except Stop β → Prop :=
  Related (fun t s => t = .stop s) R

/-- A popped value, and the rest. -/
def HoldsPopped (x : Int8 × Globals) (y : Int8 × Machine) : Prop := x.1 = y.1 ∧ Holds x.2 y.2

section Holds

variable {g : Globals} {m : Machine} (h : Holds g m)

include h

theorem Holds.load {i : Nat} (hi : i < m.stack.length) :
    ∃ v, m.stack.reverse[i]? = some v ∧ g.load i = .ok v := by
  have hlt : i < 256 := Nat.lt_of_lt_of_le hi m.stack_le
  exact ⟨_, h.stack i hlt hi, dif_pos hlt⟩

theorem Holds.die (error : String) :
    g.die error = .stop (.died error m.codePos m.stack.reverse) := by
  have hall : (List.range g.stackPos.toNat).mapM g.load = .ok m.stack.reverse := by
    rw [h.stackPos, ← List.length_reverse]
    refine mapM_range_eq_ok fun i hi => ?_
    rw [List.length_reverse] at hi
    obtain ⟨v, hv, hload⟩ := h.load hi
    rw [hload, (List.getElem?_eq_some_iff.mp hv).2]
  unfold Globals.die
  rw [hall, h.codePos]

/-- **`pop` reads below the top of the array.** -/
theorem Holds.pop : Alike HoldsPopped g.pop (Jargon.pop m) := by
  have hpos := h.stackPos
  unfold Globals.pop
  cases hs : m.stack with
  | nil =>
    rw [hs] at hpos
    rw [pop_nil hs, if_pos (UInt32.toNat_inj.mp hpos), h.die]
    exact .error rfl
  | cons v rest =>
    obtain ⟨hrest, hpop⟩ := pop_cons hs
    have hnot : g.stackPos ≠ 0 := by
      rintro heq
      rw [heq, hs] at hpos
      exact absurd hpos (by simp)
    have hle := m.stack_le
    rw [hs, List.length_cons] at hpos hle
    have htop : (g.stackPos - 1).toNat = rest.length := by
      rw [UInt32.toNat_sub_of_le _ _ (UInt32.le_iff_toNat_le.mpr (by simp [hpos])), hpos]
      rfl
    have hlt : rest.length < 256 := by omega
    have hcell := h.stack rest.length hlt (by rw [hs]; simp)
    rw [hs, List.reverse_cons, List.getElem?_append_right (by simp), List.length_reverse,
      Nat.sub_self] at hcell
    rw [if_neg hnot, hpop]
    simp only [Globals.load, htop, dif_pos hlt]
    refine ⟨(Option.some.inj hcell).symm, h.code, h.codePos, htop, fun i hi hlow => ?_⟩
    have hold := h.stack i hi (by rw [hs, List.length_cons]; exact Nat.lt_succ_of_lt hlow)
    rwa [hs, List.reverse_cons, List.getElem?_append_left (by simpa using hlow)] at hold

/-- **`push` writes inside the array.** -/
theorem Holds.push (v : Int8) : Alike Holds (g.push v) (Jargon.push v m) := by
  have hpos := h.stackPos
  unfold Globals.push Jargon.push
  by_cases hfull : m.stack.length = 256
  · have heq : g.stackPos = 256 := UInt32.toNat_inj.mp (hpos.trans hfull)
    rw [if_pos heq, dif_pos hfull, h.die]
    exact .error rfl
  · have hle := m.stack_le
    have hlt : g.stackPos.toNat < 256 := by omega
    have hnot : g.stackPos ≠ 256 := fun heq => hfull (hpos.symm.trans (congrArg UInt32.toNat heq))
    rw [if_neg hnot, dif_neg hfull]
    simp only [Globals.store, dif_pos hlt]
    refine ⟨h.code, h.codePos, ?_, fun i hi hlow => ?_⟩
    · simp [UInt32.toNat_add]
      omega
    · simp only [List.reverse_cons, List.length_cons] at hlow ⊢
      by_cases hi' : i = m.stack.length
      · subst hi'
        simp [hpos]
      · have hlow' : i < m.stack.length := by omega
        rw [List.getElem?_append_left (by simpa using hlow'), h.stack i hi hlow']
        simp [hpos, Ne.symm hi']

/-- What is read of the code does not depend on the stack. -/
theorem Holds.front : g.front = { m with stack := [], stack_le := Nat.zero_le _ } := by
  obtain ⟨code, stack, stackPos, codePos, hlt⟩ := g
  obtain ⟨hc, hp, -, -⟩ := h
  simp only at hc hp
  subst hc hp
  rfl

theorem Holds.goTo {m' : Machine} : Holds (g.goTo m')
    { m with codePos := m'.codePos, pos_lt := m'.pos_lt } :=
  ⟨h.code, rfl, h.stackPos, h.stack⟩

end Holds

/-! ## The functions do the same -/

/-- The functions of an opcode do the same. -/
def Mirrors (f : Env → Globals → Except Trap Globals) (f' : Env → Machine → Except Stop Machine) :
    Prop :=
  ∀ env g m, Holds g m → Alike Holds (f env g) (f' env m)

theorem math_mirrors (op : Int8 → Int8 → Except Stop Int8) :
    Mirrors (Globals.math op) (math op) := by
  intro env g m h
  refine h.pop.bind ?_
  rintro ⟨a, g₁⟩ ⟨a', m₁⟩ ⟨rfl, h₁⟩
  refine h₁.pop.bind ?_
  rintro ⟨b, g₂⟩ ⟨b', m₂⟩ ⟨rfl, h₂⟩
  simp only
  cases (if env.leftFirst then op a b else op b a) with
  | error s => exact .error rfl
  | ok v => exact h₂.push v

theorem mathDiv_mirrors : Mirrors Globals.mathDiv mathDiv := by
  intro env g m h
  refine h.pop.bind ?_
  rintro ⟨a, g₁⟩ ⟨a', m₁⟩ ⟨rfl, h₁⟩
  refine h₁.pop.bind ?_
  rintro ⟨b, g₂⟩ ⟨b', m₂⟩ ⟨rfl, h₂⟩
  simp only
  split_ifs
  · exact .error (h₂.die _)
  · exact h₂.push _

theorem mathNeg_mirrors : Mirrors Globals.mathNeg mathNeg := by
  intro env g m h
  refine h.pop.bind ?_
  rintro ⟨a, g₁⟩ ⟨a', m₁⟩ ⟨rfl, h₁⟩
  exact h₁.push _

theorem halt_mirrors : Mirrors Globals.halt halt := fun _ _ _ h => .error (h.die _)

theorem mySyscall_mirrors : Mirrors Globals.mySyscall mySyscall := by
  intro env g m h
  refine h.pop.bind ?_
  rintro ⟨a, g₁⟩ ⟨a', m₁⟩ ⟨rfl, h₁⟩
  simp only
  split_ifs
  · exact .foldlM (fun _ _ _ h => h.push _) h₁
  · exact .error (h₁.die _)

theorem popStack_mirrors : Mirrors Globals.popStack popStack := by
  intro env g m h
  refine h.pop.bind ?_
  rintro ⟨a, g₁⟩ ⟨a', m₁⟩ ⟨rfl, h₁⟩
  exact .ok h₁

theorem dupeStack_mirrors : Mirrors Globals.dupeStack dupeStack := by
  intro env g m h
  refine h.pop.bind ?_
  rintro ⟨a, g₁⟩ ⟨a', m₁⟩ ⟨rfl, h₁⟩
  exact (h₁.push _).bind fun _ _ h₂ => h₂.push _

theorem swapStack_mirrors : Mirrors Globals.swapStack swapStack := by
  intro env g m h
  refine h.pop.bind ?_
  rintro ⟨a, g₁⟩ ⟨a', m₁⟩ ⟨rfl, h₁⟩
  refine h₁.pop.bind ?_
  rintro ⟨b, g₂⟩ ⟨b', m₂⟩ ⟨rfl, h₂⟩
  exact (h₂.push _).bind fun _ _ h₃ => h₃.push _

theorem pushStack_mirrors : Mirrors Globals.pushStack pushStack := by
  intro env g m h
  have hbits : grabBits g.front = grabBits m := by rw [h.front]; rfl
  unfold Globals.pushStack pushStack
  rw [hbits]
  refine (h.push _).bind fun g₁ m₁ h₁ => ?_
  rw [h₁.front]
  exact .ok h₁.goTo

theorem compareAndJump_mirrors : Mirrors Globals.compareAndJump compareAndJump := by
  intro env g m h
  refine h.pop.bind ?_
  rintro ⟨a, g₁⟩ ⟨a', m₁⟩ ⟨rfl, h₁⟩
  simp only [h₁.front]
  split_ifs
  · exact .ok ⟨h₁.code, rfl, h₁.stackPos, h₁.stack⟩
  · exact .ok h₁.goTo

/-- **The two interpreters do the same**, round by round. -/
theorem step_related (env : Env) (g : Globals) (m : Machine) (h : Holds g m) :
    Alike Holds (g.step env) (step env m) := by
  have hfunc (op : Fin 16) : Mirrors (Globals.func op) (func op) := by
    fin_cases op
    · exact halt_mirrors
    · exact show Mirrors Globals.mathAdd mathAdd from math_mirrors _
    · exact show Mirrors Globals.mathSub mathSub from math_mirrors _
    · exact show Mirrors Globals.mathMul mathMul from math_mirrors _
    · exact mathDiv_mirrors
    · exact show Mirrors Globals.mathAnd mathAnd from math_mirrors _
    · exact show Mirrors Globals.mathOr mathOr from math_mirrors _
    · exact show Mirrors Globals.mathXor mathXor from math_mirrors _
    · exact mathNeg_mirrors
    · exact show Mirrors Globals.mathMod mathMod from math_mirrors _
    · exact mySyscall_mirrors
    · exact pushStack_mirrors
    · exact popStack_mirrors
    · exact dupeStack_mirrors
    · exact swapStack_mirrors
    · exact compareAndJump_mirrors
  have hop : opEntry g.front = opEntry m := by rw [h.front]; rfl
  unfold Globals.step step
  rw [hop, h.front]
  exact hfunc _ env _ _ h.goTo

/-! ## How a round stops -/

/-- The messages of `die`. -/
def messages : List String :=
  ["halted", "Stack empty", "Stack full", "Divide by 0", "", "1000 opcodes executed"]

/-- Whatever stops the computation is a call of `die`. -/
def Dies {α : Type} (x : Except Stop α) : Prop :=
  ∀ s, x = .error s → ∃ error ∈ messages, ∃ codePos stack, s = .died error codePos stack

theorem Dies.ok {α : Type} (a : α) : Dies (.ok a) := nofun

theorem Dies.die {α : Type} {error : String} (h : error ∈ messages) (m : Machine) :
    Dies (die error m : Except Stop α) := by
  intro s hs
  exact ⟨error, h, _, _, (Except.error.inj hs).symm⟩

theorem Dies.bind {α β : Type} {x : Except Stop α} {f : α → Except Stop β} (h : Dies x)
    (hf : ∀ a, x = .ok a → Dies (f a)) : Dies (x >>= f) := by
  cases x with
  | error e => exact fun s hs => h s (congrArg _ (Except.error.inj hs))
  | ok a => exact hf a rfl

theorem Dies.pop (m : Machine) : Dies (pop m) := by
  cases hs : m.stack with
  | nil =>
    rw [pop_nil hs]
    exact .die (by simp [messages]) m
  | cons v rest =>
    obtain ⟨hle, hpop⟩ := pop_cons hs
    rw [hpop]
    exact .ok _

theorem Dies.push (v : Int8) (m : Machine) : Dies (push v m) := by
  unfold Jargon.push
  split_ifs
  · exact .die (by simp [messages]) m
  · exact .ok _

theorem Dies.pushAll : ∀ (bytes : List UInt8) (m : Machine),
    Dies (bytes.foldlM (fun m b => Jargon.push b.toInt8 m) m)
  | [], m => .ok m
  | b :: bytes, m => by
    rw [List.foldlM_cons]
    exact (Dies.push _ m).bind fun m₁ _ => Dies.pushAll bytes m₁

theorem Dies.math {op : Int8 → Int8 → Except Stop Int8} (hop : ∀ a b, Dies (op a b)) (env : Env)
    (m : Machine) : Dies (math op env m) := by
  refine (Dies.pop m).bind fun ⟨a, m₁⟩ _ => (Dies.pop m₁).bind fun ⟨b, m₂⟩ _ => ?_
  refine .bind ?_ fun v _ => .push v m₂
  split_ifs
  · exact hop a b
  · exact hop b a

/-- **Fifteen functions only stop in `die`**: all but `math_mod`. -/
theorem Dies.func {op : Fin 16} (hmod : op ≠ 9) (env : Env) (m : Machine) :
    Dies (func op env m) := by
  fin_cases op
  · exact .die (by simp [messages]) m
  · exact show Dies (mathAdd env m) from .math (fun _ _ => .ok _) env m
  · exact show Dies (mathSub env m) from .math (fun _ _ => .ok _) env m
  · exact show Dies (mathMul env m) from .math (fun _ _ => .ok _) env m
  · refine (Dies.pop m).bind fun ⟨a, m₁⟩ _ => (Dies.pop m₁).bind fun ⟨b, m₂⟩ _ => ?_
    simp only
    split_ifs
    · exact .die (by simp [messages]) m₂
    · exact .push _ m₂
  · exact show Dies (mathAnd env m) from .math (fun _ _ => .ok _) env m
  · exact show Dies (mathOr env m) from .math (fun _ _ => .ok _) env m
  · exact show Dies (mathXor env m) from .math (fun _ _ => .ok _) env m
  · exact (Dies.pop m).bind fun ⟨_, m₁⟩ _ => .push _ m₁
  · exact absurd rfl hmod
  · refine (Dies.pop m).bind fun ⟨_, m₁⟩ _ => ?_
    simp only
    split_ifs
    · exact .pushAll env.flag m₁
    · exact .die (by simp [messages]) m₁
  · exact (Dies.push _ m).bind fun _ _ => .ok _
  · exact (Dies.pop m).bind fun _ _ => .ok _
  · exact (Dies.pop m).bind fun ⟨v, m₁⟩ _ => (Dies.push v m₁).bind fun m₂ _ => .push v m₂
  · refine (Dies.pop m).bind fun ⟨a, m₁⟩ _ => (Dies.pop m₁).bind fun ⟨b, m₂⟩ _ => ?_
    exact (Dies.push a m₂).bind fun m₃ _ => .push b m₃
  · refine (Dies.pop m).bind fun ⟨_, m₁⟩ _ => ?_
    simp only
    split_ifs <;> exact .ok _

attribute [local instance] neZero_opcodes

/-- The next round is a `math_mod` with a divisor of zero: the operand that is evaluated second. -/
def ZeroMod (env : Env) (m : Machine) : Prop :=
  opEntry m = 9 ∧ ∃ a b rest, m.stack = a :: b :: rest ∧ (if env.leftFirst then b else a) = 0

theorem step_of_zeroMod {env : Env} {m : Machine} (h : ZeroMod env m) :
    step env m = .error .fault := by
  obtain ⟨hop, a, b, rest, hs, hzero⟩ := h
  obtain ⟨hle₁, h₁⟩ := pop_cons (m := advance m) hs
  obtain ⟨hle₂, h₂⟩ := pop_cons (m := { advance m with stack := b :: rest, stack_le := hle₁ }) rfl
  have hstep : step env m = mathMod env (advance m) := by
    rw [step, hop]
    rfl
  rw [hstep]
  unfold mathMod math
  rw [h₁]
  simp only [bind, Except.bind, h₂]
  split_ifs at hzero ⊢ with hleft
  · rfl
  · rfl

theorem dies_of_not_zeroMod {env : Env} {m : Machine} (h : ¬ ZeroMod env m) :
    Dies (step env m) := by
  by_cases hop : opEntry m = 9
  · have hstep : step env m = mathMod env (advance m) := by
      rw [step, hop]
      rfl
    rw [hstep]
    refine (Dies.pop _).bind fun ⟨a, m₁⟩ h₁ => (Dies.pop m₁).bind fun ⟨b, m₂⟩ h₂ => ?_
    refine .bind ?_ fun v _ => .push v m₂
    have hs : m.stack = a :: b :: m₂.stack := (pop_ok h₁).1.trans (congrArg _ (pop_ok h₂).1)
    have hnonzero : (if env.leftFirst then b else a) ≠ 0 := fun hz => h ⟨hop, a, b, _, hs, hz⟩
    split_ifs at hnonzero ⊢
    · simp only [if_neg hnonzero]
      exact .ok _
    · simp only [if_neg hnonzero]
      exact .ok _
  · exact .func hop env (advance m)

/-! ## The runs -/

/-- The list machine as a machine of rounds. -/
def rounds (env : Env) : Lib.Machine Machine Stop Unit := ⟨step env, fun _ => ()⟩

theorem runLoop_eq_run (env : Env) : ∀ (n : Nat) (m : Machine), runLoop env n m =
    match (rounds env).run n m with
    | .ok m => .died "1000 opcodes executed" m.codePos m.stack.reverse
    | .error s => s
  | 0, _ => rfl
  | n + 1, m => by
    rw [runLoop]
    cases h : step env m with
    | error s => rw [Machine.run_succ_of_error (M := rounds env) h]
    | ok m' => rw [Machine.run_succ_of_ok (M := rounds env) h, ← runLoop_eq_run]

theorem boot_holds (code : Code) : Holds (Globals.boot code) (boot code) :=
  ⟨rfl, rfl, rfl, fun _ _ h => absurd h (by simp [boot])⟩

/-- **The run on the array is the run on the list.** -/
theorem Holds.runLoop {env : Env} {g : Globals} {m : Machine} (h : Holds g m) (n : Nat) :
    Globals.runLoop env n g = .stop (Jargon.runLoop env n m) := by
  have hrun := Related.run (M := Globals.cpu env) (N := rounds env) (step_related env) (n := n) h
  rw [runLoop_eq_run, Globals.runLoop]
  generalize (Globals.cpu env).run n g = x at hrun
  generalize (rounds env).run n m = y at hrun
  cases x with
  | error t =>
    cases y with
    | error s => exact hrun
    | ok m' => exact hrun.elim
  | ok g' =>
    cases y with
    | error s => exact hrun.elim
    | ok m' => exact hrun.die _

/-- The next round divides by an entry of the array that is zero. -/
def Globals.ZeroMod (env : Env) (g : Globals) : Prop :=
  opEntry g.front = 9 ∧ 2 ≤ g.stackPos.toNat ∧
    g.load (g.stackPos.toNat - if env.leftFirst then 2 else 1) = .ok 0

instance (env : Env) (g : Globals) : Decidable (g.ZeroMod env) :=
  inferInstanceAs (Decidable (_ ∧ _))

theorem Holds.zeroMod_iff {g : Globals} {m : Machine} (h : Holds g m) (env : Env) :
    g.ZeroMod env ↔ ZeroMod env m := by
  have hop : opEntry g.front = opEntry m := by rw [h.front]; rfl
  have hpos := h.stackPos
  unfold Globals.ZeroMod ZeroMod
  rw [hop]
  refine and_congr_right fun _ => ?_
  rcases hs : m.stack with _ | ⟨a, _ | ⟨b, rest⟩⟩
  · simp [hpos, hs]
  · simp [hpos, hs]
  · have hlen : g.stackPos.toNat = rest.length + 2 := by simp [hpos, hs]
    have hi : rest.length + 2 - (if env.leftFirst then 2 else 1) < m.stack.length := by
      rw [hs, List.length_cons, List.length_cons]
      split_ifs <;> omega
    obtain ⟨v, hv, hload⟩ := h.load hi
    have hval : v = if env.leftFirst then b else a := by
      rw [hs] at hv
      split_ifs at hv ⊢ <;> simp at hv <;> exact hv.symm
    rw [hlen, hload, hval]
    constructor
    · rintro ⟨-, hz⟩
      exact ⟨a, b, rest, rfl, Except.ok.inj hz⟩
    · rintro ⟨a', b', rest', heq, hz⟩
      obtain ⟨rfl, htail⟩ := List.cons.inj heq
      obtain ⟨rfl, rfl⟩ := List.cons.inj htail
      exact ⟨by omega, congrArg _ hz⟩

/-- **A run ends in `die`** exactly when none of its rounds is a `math_mod` on a zero divisor. -/
theorem runLoop_dies_iff (env : Env) : ∀ (n : Nat) (m : Machine),
    (∃ error ∈ messages, ∃ codePos stack, runLoop env n m = .died error codePos stack) ↔
      (rounds env).Before (fun m => ¬ ZeroMod env m) n m
  | 0, m => by
    refine iff_of_true ⟨"1000 opcodes executed", by simp [messages], _, _, rfl⟩ ?_
    exact fun k hk => absurd hk (Nat.not_lt_zero k)
  | n + 1, m => by
    by_cases hz : ZeroMod env m
    · have hstep := step_of_zeroMod hz
      refine iff_of_false ?_ fun hB => hB.head hz
      rintro ⟨error, -, codePos, stack, hrun⟩
      rw [runLoop, hstep] at hrun
      exact nomatch hrun
    · have hdies := dies_of_not_zeroMod hz
      rw [runLoop]
      cases h : step env m with
      | error s =>
        rw [Machine.before_succ_of_error (M := rounds env) h]
        exact iff_of_true (hdies s h) hz
      | ok m' =>
        rw [Machine.before_succ_of_ok (M := rounds env) h, and_iff_right hz]
        exact runLoop_dies_iff env n m'

/-- **Every run keeps inside the array**, and it ends in `die` exactly when none of its 1000 rounds
is a `math_mod` with a divisor of zero. -/
theorem runs_end_in_die_iff (env : Env) (code : Code) :
    (∀ n g, (Globals.cpu env).run n (Globals.boot code) = .ok g → g.stackPos.toNat ≤ 256) ∧
    Globals.runLoop env 1000 (Globals.boot code) ≠ .outside ∧
    ((∃ error ∈ messages, ∃ codePos stack,
        Globals.runLoop env 1000 (Globals.boot code) = .stop (.died error codePos stack)) ↔
      (Globals.cpu env).Before (fun g => ¬ g.ZeroMod env) 1000 (Globals.boot code)) := by
  have hboot := boot_holds code
  have hrun : Globals.runLoop env 1000 (Globals.boot code) = .stop (runLoop env 1000 (boot code)) :=
    hboot.runLoop 1000
  refine ⟨fun n g h => ?_, by rw [hrun]; exact nofun, ?_⟩
  · obtain ⟨m, -, hm⟩ :=
      (Related.run (M := Globals.cpu env) (N := rounds env) (step_related env) hboot).of_ok h
    exact hm.stackPos.trans_le m.stack_le
  · rw [Related.before_iff (N := rounds env) (step_related env)
      (fun g m h => not_congr (h.zeroMod_iff env)) hboot, ← runLoop_dies_iff, hrun]
    simp only [Trap.stop.injEq]

/-- `dead beef` and a zero twice, then `ykybhtlw`. -/
def modByZero : Code := Vector.ofFn fun i => [0xb0, 0xb0, 0x90].getD i 0

/-- The third round of `modByZero` faults. -/
theorem run_faults : ¬ ∀ env code, ∃ error codePos stack,
    Globals.runLoop env 1000 (Globals.boot code) = .stop (.died error codePos stack) := by
  intro h
  have hfault : Globals.runLoop ⟨[], true⟩ 1000 (Globals.boot modByZero) = .stop .fault := rfl
  obtain ⟨error, codePos, stack, hrun⟩ := h ⟨[], true⟩ modByZero
  exact nomatch hfault.symm.trans hrun

end Quals2017.Jargon
