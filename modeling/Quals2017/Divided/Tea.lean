import Mathlib.Logic.Function.Iterate

/-!
# TEA (`divided/ConsoleApplication2/ConsoleApplication2/mystdlib.h:655-683`)

32 rounds of additions and exclusive ors over the two halves of a block. Each round of `encrypt` has
its own `sum`, a multiple of `delta`, and `decrypt` starts at the last one and goes back.

* `decryptRound_encryptRound`, `encryptRound_decryptRound`: a round and its inverse, with `sum`.
* `tea_inverse`: **`decrypt` is the inverse of `encrypt`**, on both sides.
-/

namespace Quals2017.Divided.Tea

/-- `k[0]` to `k[3]`. -/
structure Key where
  k0 : BitVec 32
  k1 : BitVec 32
  k2 : BitVec 32
  k3 : BitVec 32

/-- `v[0]` and `v[1]`. -/
structure Block where
  v0 : BitVec 32
  v1 : BitVec 32

/-- The locals of the loops. -/
structure State extends Block where
  sum : BitVec 32

/-- `delta`. -/
def delta : BitVec 32 := 0x9e3779b9

/-- `((v<<4) + k) ^ (v + sum) ^ ((v>>5) + k')`. -/
def mix (v sum k k' : BitVec 32) : BitVec 32 := ((v <<< 4) + k) ^^^ (v + sum) ^^^ ((v >>> 5) + k')

variable (k : Key)

def encryptRound (s : State) : State :=
  let sum := s.sum + delta
  let v0 := s.v0 + mix s.v1 sum k.k0 k.k1
  let v1 := s.v1 + mix v0 sum k.k2 k.k3
  { v0, v1, sum }

def decryptRound (s : State) : State :=
  let v1 := s.v1 - mix s.v0 s.sum k.k2 k.k3
  let v0 := s.v0 - mix v1 s.sum k.k0 k.k1
  { v0, v1, sum := s.sum - delta }

/-- `encrypt`. -/
def encrypt (v : Block) : Block := ((encryptRound k)^[32] { v with sum := 0 }).toBlock

/-- `decrypt`. -/
def decrypt (v : Block) : Block := ((decryptRound k)^[32] { v with sum := 0xC6EF3720 }).toBlock

/-! ## Rounds -/

/-- **A round is undone** from the sum it leaves. -/
theorem decryptRound_encryptRound : Function.LeftInverse (decryptRound k) (encryptRound k) := by
  intro s
  simp only [decryptRound, encryptRound, BitVec.add_sub_cancel]

@[inherit_doc decryptRound_encryptRound]
theorem encryptRound_decryptRound : Function.LeftInverse (encryptRound k) (decryptRound k) := by
  intro s
  simp only [decryptRound, encryptRound, BitVec.sub_add_cancel]

/-- The sum after some rounds. -/
theorem encryptRound_sum (n : Nat) (s : State) :
    ((encryptRound k)^[n] s).sum = s.sum + BitVec.ofNat 32 n * delta := by
  induction n with
  | zero => simp
  | succ n ih =>
    rw [Function.iterate_succ_apply', BitVec.ofNat_add, BitVec.add_mul, ← BitVec.add_assoc, ← ih,
      BitVec.one_mul]
    rfl

theorem decryptRound_sum (n : Nat) (s : State) :
    ((decryptRound k)^[n] s).sum = s.sum - BitVec.ofNat 32 n * delta := by
  have hsum := encryptRound_sum k n ((decryptRound k)^[n] s)
  rw [(encryptRound_decryptRound k).iterate n s] at hsum
  rw [hsum, BitVec.add_sub_cancel]

/-! ## Blocks -/

/-- The state behind the last round of `encrypt` is the one `decrypt` starts with. -/
theorem encrypt_state (v : Block) : (encryptRound k)^[32] { v with sum := 0 } =
    { encrypt k v with sum := 0xC6EF3720 } := by
  have hsum := encryptRound_sum k 32 { v with sum := 0 }
  have hlast : (0 : BitVec 32) + BitVec.ofNat 32 32 * delta = 0xC6EF3720 := by decide
  rw [hlast] at hsum
  unfold encrypt
  rw [← hsum]

theorem decrypt_state (v : Block) : (decryptRound k)^[32] { v with sum := 0xC6EF3720 } =
    { decrypt k v with sum := 0 } := by
  have hsum := decryptRound_sum k 32 { v with sum := 0xC6EF3720 }
  have hfirst : (0xC6EF3720 : BitVec 32) - BitVec.ofNat 32 32 * delta = 0 := by decide
  rw [hfirst] at hsum
  unfold decrypt
  rw [← hsum]

/-- **`decrypt` undoes `encrypt`, and `encrypt` undoes `decrypt`**, under every key. -/
theorem tea_inverse (v : Block) : decrypt k (encrypt k v) = v ∧ encrypt k (decrypt k v) = v := by
  constructor
  · have hback := (decryptRound_encryptRound k).iterate 32 { v with sum := 0 }
    rw [encrypt_state] at hback
    rw [decrypt, hback]
  · have hback := (encryptRound_decryptRound k).iterate 32 { v with sum := 0xC6EF3720 }
    rw [decrypt_state] at hback
    rw [encrypt, hback]

end Quals2017.Divided.Tea
