import Mathlib.Data.Int.Bitwise
import Quals2017.Lib.FlatMem
import Quals2017.Lib.LockStep

/-!
# The interpreter of insane words (`insanity/insanity.c:36-49`, `:214-414`)

The words of a program are counts of `insanity`. They fill `Stack` from entry 2 on, behind two
string pointers, and a zero ends them. `IP` runs over the same array, and the operands of the
program go on top of that zero: `Stack[StackPos]` is the top of the stack, pushed as
`Stack[++StackPos]` and popped as `Stack[StackPos--]`. An entry with the top bit set is a pointer
to a string.

* `State` and `step`: one round of the loop `while(Stack[IP])`, every opcode.
* `Halt`: how a round can end the program; an access outside of `Stack` or of mapped memory is
  `fault`.
* `started` and `Reaches`: the loop begins on any list of words that fits, and goes on from there.

The recogniser behind `hyp` and the prints are left out.
-/

namespace Quals2017.Insanity

open Quals2017.Lib

/-- Memory behind the string pointers, apart from `Stack`. -/
abbrev Mem := FlatMem UInt8

/-- What lies outside the interpreter: where `Stack` and `Insanity` are, and the allocator. `free`
is `none` on a pointer the allocator does not accept. -/
structure Env where
  stackAddr : UInt64
  insanityAddr : UInt64
  malloc : Mem → Nat → UInt64 × Mem
  free : Mem → UInt64 → Option Mem

/-- The variables of the loop. -/
structure State where
  stack : Vector UInt64 1000
  stackPos : Int
  ip : Int
  mem : Mem

/-- How a round ends the program: `_exit` with its message, the end of the program, or an access
to memory that is not there. -/
inductive Halt where
  | exit (message : String)
  | done
  | fault
  deriving DecidableEq

/-! ## Memory -/

/-- `0x8000000000000000`. -/
def stringBit : UInt64 := 0x8000000000000000

/-- `Entry & 0x8000000000000000`. -/
def IsString (entry : UInt64) : Prop := entry &&& stringBit ≠ 0

instance (entry : UInt64) : Decidable (IsString entry) := inferInstanceAs (Decidable (_ ≠ _))

/-- `Entry & 0x7fffffffffffffff`. -/
def address (entry : UInt64) : UInt64 := entry &&& 0x7fffffffffffffff

/-- `Stack[i]`. -/
def State.load (s : State) (i : Int) : Except Halt UInt64 :=
  if h : 0 ≤ i ∧ i < 1000 then .ok s.stack[i.toNat] else .error .fault

/-- `Stack[i] = v`. -/
def State.store (s : State) (i : Int) (v : UInt64) : Except Halt State :=
  if h : 0 ≤ i ∧ i < 1000 then .ok { s with stack := s.stack.set i.toNat v (by omega) }
  else .error .fault

/-- The byte at an address, in `Stack` or elsewhere. -/
def State.byte (env : Env) (s : State) (a : UInt64) : Except Halt UInt8 :=
  let offset := (a - env.stackAddr).toNat
  if h : offset < 8000 then
    .ok (s.stack[offset / 8] >>> UInt64.ofNat (8 * (offset % 8))).toUInt8
  else if s.mem.dom a.toNat then .ok (s.mem.byte a.toNat) else .error .fault

/-- The word at an address. -/
def State.word (env : Env) (s : State) (a : UInt64) : Except Halt UInt64 := do
  let bytes ← (List.range 8).mapM fun k => s.byte env (a + UInt64.ofNat k)
  .ok (bytes.foldr (fun b w => w <<< 8 ||| b.toUInt64) 0)

/-- The string at an address, up to its zero, of at most that many bytes. -/
def State.cstring (env : Env) (s : State) : Nat → UInt64 → Except Halt (List UInt8)
  | 0, _ => .error .fault
  | n + 1, a => do
    let b ← s.byte env a
    if b = 0 then .ok [] else do
      let bytes ← s.cstring env n (a + 1)
      .ok (b :: bytes)

/-- The string at an address. -/
def State.string (env : Env) (s : State) (a : UInt64) : Except Halt (List UInt8) :=
  s.cstring env (2 ^ 64) a

/-- `free`, unless the pointer is `Insanity`. -/
def State.release (env : Env) (s : State) (a : UInt64) : Except Halt State :=
  if a = env.insanityAddr then .ok s
  else match env.free s.mem a with
    | some mem => .ok { s with mem }
    | none => .error .fault

/-- `malloc`, and the bytes copied to the new block. -/
def State.newString (env : Env) (s : State) (bytes : List UInt8) : Except Halt (UInt64 × State) :=
  let (a, mem) := env.malloc s.mem bytes.length
  if mem.extent a.toNat bytes.length = bytes.length then
    .ok (a, { s with mem := mem.write a.toNat bytes })
  else .error .fault

/-! ## The operators -/

/-- `Stack[StackPos--]`. -/
def State.pop (s : State) : Except Halt (UInt64 × State) := do
  let v ← s.load s.stackPos
  .ok (v, { s with stackPos := s.stackPos - 1 })

/-- `Stack[++StackPos] = v`. -/
def State.push (s : State) (v : UInt64) : Except Halt State :=
  { s with stackPos := s.stackPos + 1 }.store (s.stackPos + 1) v

/-- `if((StackPos+1) == (sizeof(Stack) / sizeof(Stack[0])))`. -/
def State.room (s : State) : Except Halt Unit :=
  if s.stackPos + 1 = 1000 then .error (.exit "Internal limitation\n") else .ok ()

/-- `case 1`: the string `insanity`. -/
def insanity (env : Env) (s : State) : Except Halt State := do
  s.room
  s.push (env.insanityAddr ||| stringBit)

/-- `case 2`: the sum, or the strings one behind the other. -/
def add (env : Env) (s : State) : Except Halt State := do
  let (entry1, s) ← s.pop
  let (entry2, s) ← s.pop
  if entry1 &&& entry2 &&& stringBit ≠ 0 then do
    let entry1 := address entry1
    let entry2 := address entry2
    let bytes1 ← s.string env entry1
    let bytes2 ← s.string env entry2
    let (newString, s) ← s.newString env (bytes1 ++ bytes2 ++ [0])
    -- no `| 0x8000000000000000` here
    let s ← s.push newString
    let s ← s.release env entry1
    s.release env entry2
  else if IsString entry1 ∨ IsString entry2 then .error (.exit "Invalid add\n")
  else s.push (entry1 + entry2)

/-- `case 3` and `case 4`: numbers only. -/
def arithmetic (op : UInt64 → UInt64 → UInt64) (message : String) (s : State) :
    Except Halt State := do
  let (entry1, s) ← s.pop
  let (entry2, s) ← s.pop
  if IsString entry1 ∨ IsString entry2 then .error (.exit message) else s.push (op entry1 entry2)

/-- `case 3`. -/
def subtract : State → Except Halt State :=
  arithmetic (fun entry1 entry2 => entry2 - entry1) "Invalid subtract\n"

/-- `case 4`. -/
def multiply : State → Except Halt State :=
  arithmetic (fun entry1 entry2 => entry1 * entry2) "Invalid multiply\n"

/-- `case 5`: of two strings, the result is stored at `Stack[StackPos++]`. -/
def compare (env : Env) (s : State) : Except Halt State := do
  let (entry1, s) ← s.pop
  let (entry2, s) ← s.pop
  if entry1 &&& entry2 &&& stringBit ≠ 0 then do
    let bytes1 ← s.string env (address entry1)
    let bytes2 ← s.string env (address entry2)
    let s ← s.store s.stackPos (if bytes1 = bytes2 then 1 else 0)
    .ok { s with stackPos := s.stackPos + 1 }
  else if IsString entry1 ∨ IsString entry2 then .error (.exit "Invalid compare\n")
  else s.push (if entry1 = entry2 then 1 else 0)

/-- `case 6`: an entry of one of the two arrays behind `Stack[0]` and `Stack[1]`. -/
def loadEntry (env : Env) (s : State) : Except Halt State := do
  let s := { s with ip := s.ip + 1 }
  let entry1 ← s.load s.ip
  if entry1 ≠ 0 ∧ entry1 ≠ 1 then .error (.exit "Invalid load\n") else do
    let base ← s.load entry1.toNat
    if ¬ IsString base then .error (.exit "Invalid load\n") else do
      let (entry2, s) ← s.pop
      let v ← s.word env (address base + 8 * entry2)
      s.push v

/-- `case 7`. -/
def storeEntry (s : State) : Except Halt State := do
  let (entry1, s) ← s.pop
  let (entry2, s) ← s.pop
  if IsString entry1 then .error (.exit "Invalid store\n") else s.store entry1.toNat entry2

/-- `case 8`: `IP` is an `int`. -/
def jump (s : State) : Except Halt State := do
  let (entry1, s) ← s.pop
  let (entry2, s) ← s.pop
  if IsString entry1 ∨ IsString entry2 then .error (.exit "Invalid jump\n")
  else if entry2 ≠ 0 then .ok { s with ip := (s.ip + (entry1.toNat - 1 : Int)).bmod (2 ^ 32) }
  else .ok s

/-- `case 9`: a string of one character, that of the entry below the top. -/
def addChar (env : Env) (s : State) : Except Halt State := do
  s.room
  let s := { s with stackPos := s.stackPos - 1 }
  let entry ← s.load s.stackPos
  let (newString, s) ← s.newString env [entry.toUInt8, 0]
  s.push (newString ||| stringBit)

/-- `default`: a number. -/
def number (opcode : UInt64) (s : State) : Except Halt State := do
  s.room
  s.push (opcode - 10)

/-- `switch(Stack[IP])`. -/
def execute (env : Env) (opcode : UInt64) (s : State) : Except Halt State :=
  if opcode = 1 then insanity env s
  else if opcode = 2 then add env s
  else if opcode = 3 then subtract s
  else if opcode = 4 then multiply s
  else if opcode = 5 then compare env s
  else if opcode = 6 then loadEntry env s
  else if opcode = 7 then storeEntry s
  else if opcode = 8 then jump s
  else if opcode = 9 then addChar env s
  else number opcode s

/-- One round of `while(Stack[IP])`. -/
def step (env : Env) (s : State) : Except Halt State := do
  let opcode ← s.load s.ip
  if opcode = 0 then .error .done else do
    let s ← execute env opcode s
    .ok { s with ip := s.ip + 1 }

/-- The interpreter. -/
def machine (env : Env) : Machine State Halt Unit := ⟨step env, fun _ => ()⟩

/-! ## The start -/

/-- The loop begins: the words of the program from entry 2 on, a zero behind them, and the pointers
to `Stack` and to the rest of the recognised text. -/
def started (env : Env) (rest : UInt64) (words : List UInt64) (mem : Mem) : State where
  stack := Vector.ofFn fun i =>
    ((env.stackAddr ||| stringBit) :: (rest ||| stringBit) :: words ++ [0]).getD i 0
  stackPos := words.length + 2
  ip := 2
  mem

end Quals2017.Insanity
