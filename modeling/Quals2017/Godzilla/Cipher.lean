import Mathlib.Logic.Function.Iterate
import Quals2017.Godzilla.BigInt
import Quals2017.Godzilla.StreamData

/-!
# The cipher of the requests (`godzilla/src/cipher.cpp`, `godzilla/server/cipher.cpp`)

`RunCipher` makes the next eight bytes of a key stream out of the last eight, and the data is
combined with the stream by exclusive or. The two sides have the same file, and the two functions of
it the same body. The length is a `uint8_t`, whatever the caller has.

* **`decrypt_encrypt`**: the same key and length undo the encryption.
-/

namespace Quals2017.Godzilla

/-- A key of four words. -/
abbrev CipherKey := BitVec 2 → Word

/-- `delta`. -/
def delta : Word := 0x83E778B9

/-- The body of the loop of `RunCipher`, on `v0`, `v1` and `sum`. -/
def cipherRound (key : CipherKey) : Word × Word × Word → Word × Word × Word
  | (v0, v1, sum) =>
    let v0 := v0 + ((((v1 <<< 4) ^^^ (v1 >>> 5)) + v1) ^^^ (sum + key (sum.extractLsb' 0 2)))
    let sum := sum + delta
    let v1 := v1 + ((((v0 <<< 4) ^^^ (v0 >>> 5)) + v0) ^^^ (sum + key (sum.extractLsb' 11 2)))
    (v0, v1, sum)

/-- `RunCipher`. -/
def runCipher (key : CipherKey) (v : Word × Word) : Word × Word :=
  let (v0, v1, _) := (cipherRound key)^[16] (v.1, v.2, delta * 16)
  (v0, v1)

/-- `((uint8_t*)cipherState)[i]`. -/
def stateByte (cipherState : Word × Word) (i : Nat) : Byte :=
  (cipherState.2 ++ cipherState.1).extractLsb' (8 * i) 8

/-- The loop of `EncryptRequestData` at index `i`. -/
def requestLoop (cipherKey : CipherKey) : Nat → Word × Word → List Byte → List Byte
  | _, _, [] => []
  | i, cipherState, b :: pData =>
    let cipherState := if i % 8 = 0 then runCipher cipherKey cipherState else cipherState
    (b ^^^ stateByte cipherState (i % 8)) :: requestLoop cipherKey (i + 1) cipherState pData

/-- `EncryptRequestData`. -/
def encryptRequestData (cipherKey : CipherKey) (pData : List Byte) (dataLen : Byte) : List Byte :=
  requestLoop cipherKey 0 (0, 0) (pData.take dataLen.toNat) ++ pData.drop dataLen.toNat

/-- `DecryptRequestData`. -/
def decryptRequestData (cipherKey : CipherKey) (pData : List Byte) (dataLen : Byte) : List Byte :=
  requestLoop cipherKey 0 (0, 0) (pData.take dataLen.toNat) ++ pData.drop dataLen.toNat

@[simp] theorem requestLoop_length (key : CipherKey) : ∀ (pData : List Byte) (i : Nat)
    (s : Word × Word), (requestLoop key i s pData).length = pData.length
  | [], _, _ => rfl
  | b :: pData, i, s => by
    rw [requestLoop, List.length_cons, List.length_cons, requestLoop_length key pData]

/-- The key stream does not depend on the data. -/
theorem requestLoop_requestLoop (key : CipherKey) : ∀ (pData : List Byte) (i : Nat)
    (s : Word × Word), requestLoop key i s (requestLoop key i s pData) = pData
  | [], _, _ => rfl
  | b :: pData, i, s => by
    simp only [requestLoop]
    rw [requestLoop_requestLoop key pData, BitVec.xor_assoc, BitVec.xor_self, BitVec.xor_zero]

@[simp] theorem encryptRequestData_length (key : CipherKey) (pData : List Byte) (dataLen : Byte) :
    (encryptRequestData key pData dataLen).length = pData.length := by
  rw [encryptRequestData, List.length_append, requestLoop_length, ← List.length_append,
    List.take_append_drop]

@[simp] theorem decryptRequestData_length (key : CipherKey) (pData : List Byte) (dataLen : Byte) :
    (decryptRequestData key pData dataLen).length = pData.length :=
  encryptRequestData_length key pData dataLen

/-- **The same key and length undo the encryption.** -/
theorem decrypt_encrypt (key : CipherKey) {pData : List Byte} {dataLen : Byte}
    (h : dataLen.toNat ≤ pData.length) :
    decryptRequestData key (encryptRequestData key pData dataLen) dataLen = pData := by
  have hlen : (requestLoop key 0 (0, 0) (pData.take dataLen.toNat)).length = dataLen.toNat := by
    rw [requestLoop_length, List.length_take_of_le h]
  rw [decryptRequestData, encryptRequestData, List.take_left' hlen, List.drop_left' hlen,
    requestLoop_requestLoop, List.take_append_drop]

end Quals2017.Godzilla
