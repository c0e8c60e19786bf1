import Mathlib.Algebra.Order.Ring.Nat
import Quals2017.Lib.Stretch

/-!
# The compressor of the server (`liberty/server/compress.c:50-420`)

Three phases. `Phase1` is run-length coding with an escape byte. `Phase2` replaces substrings that
occur again by references to a dictionary, from long to short. `Phase3` replaces the most frequent
pair of bytes by one byte as long as that pays.

* An `OutDataStruct` is a list of bytes. `Phase1` reads the memory from `data` on, for `len - 3`
  wraps around where `len` is below 3.
* `phase2` is `none` where it writes behind `DataList`, `phase3` where it finds no unused byte.
* `memfind` is one loop, with `memchr` and `memcmp` in it.
-/

namespace Quals2017.Liberty

open Quals2017.Lib.Stretch

abbrev Byte := BitVec 8

/-- `FindBestChar`: the first of the rarest bytes, and how often it occurs. -/
def findBestChar (data : List Byte) (skipChar : Nat) : Byte × Nat :=
  (List.range 256).foldl (fun best i =>
    if skipChar < 256 ∧ i = skipChar then best
    else if data.count (BitVec.ofNat 8 i) < best.2 then
      (BitVec.ofNat 8 i, data.count (BitVec.ofNat 8 i))
    else best) (0, data.length)

/-! ## `Phase1` -/

/-- The inner loop of `Phase1`: how often the byte at `i` occurs in a row. The fuel stands for
`Count < 258`. -/
def countRun (data : Nat → Byte) (len i : Nat) : Nat → Nat → Nat
  | 0, count => count
  | n + 1, count =>
    if i + count < len ∧ data i = data (i + count) then countRun data len i n (count + 1) else count

/-- `i < len - 3` and four bytes that are the same. -/
def runAt (data : Nat → Byte) (len i : Nat) : Prop :=
  i < (len + (2 ^ 32 - 3)) % 2 ^ 32 ∧ data i = data (i + 1) ∧ data i = data (i + 2) ∧
    data i = data (i + 3)

instance (data : Nat → Byte) (len i : Nat) : Decidable (runAt data len i) :=
  inferInstanceAs (Decidable (_ ∧ _))

/-- The loop of `Phase1`. -/
def phase1Loop (data : Nat → Byte) (len : Nat) (key : Byte) : Nat → Nat → List Byte
  | 0, _ => []
  | n + 1, i =>
    if i < len then
      if runAt data len i then
        let count := countRun data len i 254 4
        key :: BitVec.ofNat 8 (count - 3) :: data i :: phase1Loop data len key n (i + count)
      else if data i = key then key :: 0 :: phase1Loop data len key n (i + 1)
      else data i :: phase1Loop data len key n (i + 1)
    else []

/-- `Phase1`. -/
def phase1 (data : Nat → Byte) (len : Nat) : List Byte :=
  let key := (findBestChar (stretch data 0 len) 0x100).1
  key :: phase1Loop data len key len 0

/-! ## `Phase2` -/

/-- `memfind`: where `find` occurs first. It gives up where there is no room behind. -/
def memfind : List Byte → List Byte → Option Nat
  | [], _ => none
  | b :: buf, find =>
    if find.head? = some b then
      if buf.length + 1 < find.length then none
      else if (b :: buf).take find.length = find then some 0
      else (memfind buf find).map (· + 1)
    else (memfind buf find).map (· + 1)

/-- What is left of the data from `LastDataPos` on after all occurrences have been replaced, where
the next is at `pos`. -/
def replaceRest (find mark : List Byte) : Nat → List Byte → Nat → List Byte
  | 0, l, _ => l
  | n + 1, l, pos =>
    let rest := l.drop (pos + find.length)
    l.take pos ++ mark ++
      match memfind rest find with
      | none => rest
      | some pos => replaceRest find mark n rest pos

/-- `DataList` and `CurData`. -/
structure Dict where
  list : List (List Byte)
  cur : List Byte
  deriving DecidableEq

/-- The replacement of the substring at `pos`, of length `i`, that occurs again `next` bytes behind
it. With its last entry the data stays as it is. -/
def addEntry (key : Byte) (i pos next : Nat) (s : Dict) : Option Dict :=
  let list := if s.list.length = key.toNat then s.list ++ [[key, key]] else s.list
  let find := (s.cur.drop pos).take i
  let mark := [key, BitVec.ofNat 8 list.length]
  let rest := s.cur.drop (pos + i)
  if 256 ≤ list.length then none
  else if list.length + 1 = 256 then some ⟨list ++ [find], s.cur⟩
  else some ⟨list ++ [find], s.cur.take pos ++ mark ++ replaceRest find mark rest.length rest next⟩

/-- The loop of `Phase2` over the positions. -/
def searchPos (key : Byte) (i : Nat) : Nat → Nat → Dict → Option Dict
  | 0, _, s => some s
  | n + 1, pos, s =>
    if pos + i < s.cur.length then
      match memfind (s.cur.drop (pos + i)) ((s.cur.drop pos).take i) with
      | some next =>
        match addEntry key i pos next s with
        | none => none
        | some s' => if s'.list.length = 256 then some s' else searchPos key i n pos s'
      | none => if s.list.length = 256 then some s else searchPos key i n (pos + 1) s
    else some s

/-- The loop of `Phase2` over the lengths, from `n + 2` down to 3. -/
def searchLen (key : Byte) : Nat → Dict → Option Dict
  | 0, s => some s
  | n + 1, s =>
    match searchPos key (n + 3) (s.cur.length + 1) 0 s with
    | none => none
    | some s => searchLen key n s

/-- The loop that escapes the key. It looks at `CurData` at the index of the input. -/
def escape (key : Byte) : Nat → List Byte → List Byte → List Byte
  | _, [], cur => cur
  | i, b :: rest, cur =>
    let cur := cur ++ [b]
    escape key (i + 1) rest (if cur.getD i 0 = key then cur ++ [0xff] else cur)

/-- The key of `Phase2`, and its data before the first replacement. -/
def phase2Start (data : List Byte) : Byte × List Byte :=
  let key := (findBestChar (0 :: data) 0x100).1
  (key, escape key 0 (0 :: data) [])

/-- `DataList` and `CurData` at the end of `Phase2`. -/
def phase2Search (data : List Byte) : Option Dict :=
  searchLen (phase2Start data).1 253 ⟨[], (phase2Start data).2⟩

/-- What `Phase2` writes out. -/
def phase2Out (key : Byte) (s : Dict) : List Byte :=
  key :: s.list.flatMap (fun entry => BitVec.ofNat 8 entry.length :: entry) ++ s.cur

/-- `Phase2`. -/
def phase2 (data : List Byte) : Option (List Byte) :=
  (phase2Search data).map (phase2Out (phase2Start data).1)

/-! ## `Phase3` -/

/-- `WordCount`: how often a pair of bytes occurs. -/
def wordCount (data : List Byte) (w : Nat) : Nat :=
  (data.zip data.tail).count (BitVec.ofNat 8 w, BitVec.ofNat 8 (w / 256))

/-- `BestMatchShort` and `BestMatchCount`. -/
@[irreducible] def bestMatch (data : List Byte) : Nat × Nat :=
  (List.range 0x10000).foldl (fun best i =>
    if best.2 < wordCount data i then (i, wordCount data i) else best) (0, 0)

/-- The loop that replaces a pair. -/
def replacePairs (key special lo hi : Byte) : List Byte → List Byte
  | [] => []
  | a :: rest =>
    if a = key then key :: special :: replacePairs key special lo hi rest
    else
      match rest with
      | b :: c :: rest' =>
        if a = lo ∧ b = hi ∧ c ≠ special then key :: replacePairs key special lo hi (c :: rest')
        else a :: replacePairs key special lo hi (b :: c :: rest')
      | rest => a :: replacePairs key special lo hi rest

/-- One round of `Phase3`, where the most frequent pair is frequent enough. -/
def round (special : Byte) (data : List Byte) : Option (List Byte) :=
  let key := (findBestChar data special.toNat).1
  let best := bestMatch data
  let lo := BitVec.ofNat 8 best.1
  let hi := BitVec.ofNat 8 (best.1 / 256)
  if 3 ≤ best.2 then some (key :: lo :: hi :: replacePairs key special lo hi data) else none

/-- The loop of `Phase3`, as long as the data gets shorter. -/
def shrink (special : Byte) : Nat → List Byte → List Byte
  | 0, smallest => smallest
  | n + 1, smallest =>
    match round special smallest with
    | none => smallest
    | some cur => if cur.length < smallest.length then shrink special n cur else smallest

/-- A round of the loop. -/
theorem shrink_succ (special : Byte) (n : Nat) (smallest : List Byte) :
    shrink special (n + 1) smallest = match round special smallest with
      | none => smallest
      | some cur => if cur.length < smallest.length then shrink special n cur else smallest := by
  have hloop : shrink special = fun n smallest =>
      Nat.brecOn (motive := fun _ => List Byte → List Byte) n (shrink._f special) smallest := by
    delta shrink
    rfl
  have hbody := Eq.refl (shrink._f special)
  conv at hbody => rhs; delta shrink._f
  -- hidden, as the comparison would search all pairs of bytes for the best one
  obtain ⟨g, hg⟩ : ∃ g, g = round special := ⟨_, rfl⟩
  rw [← hg] at hbody ⊢
  rw [hloop, hbody] <;> rfl

/-- `Phase3`. -/
def phase3 (data : List Byte) : Option (List Byte) :=
  let special := findBestChar data 0x100
  if special.2 ≠ 0 then none
  else some (special.1 :: shrink special.1 (data.length + 1) (special.1 :: data))

/-- `Compress`, where no phase fails. -/
def compress (data : Nat → Byte) (len : Nat) : Option (List Byte) :=
  match phase2 (phase1 data len) with
  | none => none
  | some out => phase3 out

end Quals2017.Liberty
