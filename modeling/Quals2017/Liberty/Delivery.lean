import Quals2017.Liberty.Device

/-!
# The way of the flag (`liberty/server/liberty-server.c:1099-1144,1308-1355`,
`liberty/server/payloads/64/payload-readdev_defcon2017.c`,
`liberty/server/payloads/64/payload-writedev_defcon2017.c`)

The server enciphers the flag under a key and an IV of its own and builds the module with it. Once
the module runs, it reads the first bytes back, mixes its text into the key and writes the IV and
the key. What is left to the player are the knocks, which undo the mixing, and the read.

* Opening the device, and what the two payloads send back, does not fail. `junk` is the buffer of
  the client before the first payload.
* `step_knock`: after `k` knocks the first `k` bytes of the key are those of the server.
* **`flag_delivered`**: the server accepts the module, and the knocks and a read give the flag.
-/

namespace Quals2017.Liberty.Device

open Quals2017.Lib Quals2017.Lib.Chunks Quals2017.Liberty.Ratchet

/-- `FlagFileStruct`, with what is compiled into the module. -/
structure FlagFile where
  key : Key
  iv : Block
  flag : Flag
  readLen : Nat

/-- `GenerateFlagFile`: the random key, IV and number of bytes, and the text of the flag file. -/
def generateFlagFile (c : Cipher) (key : Key) (iv : Block) (readLen : UInt32) (tempFlag : Flag) :
    FlagFile where
  key := key
  iv := iv
  flag := window 0 128 (c.iEnc256CBC key iv (128 >>> 4) tempFlag.toList).1
  readLen := readLen.toNat % (128 - 10) + 10

/-- `payload-readdev_defcon2017`: what it leaves at the head of `Data`. -/
def readdev (c : Cipher) (readSize : Nat) (s : Globals) (readLen : Nat) (data : List UInt8) :
    Globals × List UInt8 :=
  let (s, reply) := read c readSize s readLen
  (s, (reply.out ++ data.drop reply.out.length).take readLen)

/-- `payload-writedev_defcon2017`: the number in `Data`. -/
def writedev (s : Globals) (iv decryptKey : List UInt8) : Globals × Int :=
  let (s, reply) := write s iv
  if reply.ret ≠ 16 then (s, reply.ret)
  else
    let (s, reply) := write s decryptKey
    if reply.ret ≠ 32 then (s, reply.ret) else (s, 0)

/-- The key of the server with its text mixed in. -/
def mungedKey (key : Key) : Key := Vector.zipWith (· ^^^ ·) key decryptXorKey

/-- The end of `WriteKernelModule`, on a module with the flag file. `none` is a failure. -/
def checkKernelModule (c : Cipher) (f : FlagFile) (junk : List UInt8) (s : Globals) :
    Option Globals :=
  let (s, response) := readdev c f.readLen s f.readLen junk
  if response ≠ f.flag.toList.take f.readLen then none
  else
    let (s, ret) := writedev s f.iv.toList (mungedKey f.key).toList
    if ret ≠ 0 then none else some s

/-- The `n`-th knock of a player who knows the text. -/
def knock (n : Nat) : Call := .ioctl (ioZ (decryptXorKey.getD n 0).toNat)

section

variable {c : Cipher} {readSize : Nat}

/-- The module once the server has accepted it. -/
def accepted (f : FlagFile) : Globals where
  flagData := f.flag
  decKey := mungedKey f.key
  decIV := f.iv
  initialRead := 1
  initialWrite := 2
  knockCount := 0

/-- A key whose first bytes are unmasked. -/
def unmaskedKey (key : Key) (k : Nat) : Key :=
  Vector.ofFn fun i => if i.val < k then key[i] else (mungedKey key)[i]

/-- The bytes that come back. -/
theorem readdev_init (f : FlagFile) (junk : List UInt8) (hread : f.readLen ≤ 128) :
    readdev c f.readLen (init f.flag) f.readLen junk =
      ({ init f.flag with initialRead := 1 }, f.flag.toList.take f.readLen) := by
  have hlen : (f.flag.toList.take f.readLen).length = f.readLen := by
    rw [List.length_take, Vector.length_toList]
    omega
  have hfirst : (init f.flag).initialRead = 0 := rfl
  have hflag : (init f.flag).flagData = f.flag := rfl
  simp only [readdev, read, hfirst, hflag, if_true, ne_eq, not_true_eq_false, if_false]
  rw [List.take_left' hlen]

/-- **The server accepts the module**, whatever it drew. -/
theorem checkKernelModule_init (f : FlagFile) (junk : List UInt8) (hread : f.readLen ≤ 128) :
    checkKernelModule c f junk (init f.flag) = some (accepted f) := by
  have hiv (z : UInt8) : window z 16 f.iv.toList = f.iv := by
    simpa using window_append z f.iv []
  have hkey (z : UInt8) : window z 32 (mungedKey f.key).toList = mungedKey f.key := by
    simpa using window_append z (mungedKey f.key) []
  rw [checkKernelModule, readdev_init f junk hread]
  simp [writedev, write, init, hiv, hkey, accepted]

theorem unmaskedKey_zero (key : Key) : unmaskedKey key 0 = mungedKey key := by
  refine Vector.ext fun i hi => ?_
  simp [unmaskedKey]

theorem unmaskedKey_all (key : Key) : unmaskedKey key 32 = key := by
  refine Vector.ext fun i hi => ?_
  simp [unmaskedKey]

/-- The module mixes the same byte in again. -/
theorem unmaskedKey_succ (key : Key) {k : Nat} (hk : k < 32) :
    (unmaskedKey key k).setIfInBounds k ((unmaskedKey key k).getD k 0 ^^^ decryptXorKey[k]) =
      unmaskedKey key (k + 1) := by
  have hmasked : (unmaskedKey key k).getD k 0 = key[k] ^^^ decryptXorKey[k] := by
    simp [unmaskedKey, mungedKey, Vector.getD, hk]
  have hnext {i : Nat} (hi : i < 32) :
      (unmaskedKey key (k + 1))[i] = if i < k + 1 then key[i] else (mungedKey key)[i] := by
    exact Vector.getElem_ofFn hi
  have hlast {i : Nat} (hi : i < 32) :
      (unmaskedKey key k)[i] = if i < k then key[i] else (mungedKey key)[i] := by
    exact Vector.getElem_ofFn hi
  refine Vector.ext fun i hi => ?_
  rw [Vector.getElem_setIfInBounds, hnext, hlast, hmasked, UInt8.xor_assoc, UInt8.xor_self,
    UInt8.xor_zero]
  by_cases hik : k = i
  · subst hik
    rw [if_pos rfl, if_pos (Nat.lt_succ_self k)]
  · have hiff : i < k + 1 ↔ i < k := by omega
    simp only [if_neg hik, hiff]

/-- The module after knocks. -/
def knocked (f : FlagFile) (k : Nat) : Globals :=
  { accepted f with decKey := unmaskedKey f.key k, knockCount := k }

theorem knocked_zero (f : FlagFile) : knocked f 0 = accepted f := by
  rw [knocked, unmaskedKey_zero]
  rfl

/-- **A knock unmasks a byte**, and says nothing. -/
theorem step_knock (f : FlagFile) {k : Nat} (hk : k < 32) :
    step c readSize (knocked f k) (knock k) = (knocked f (k + 1), ⟨0, []⟩) := by
  have hval : Knocks.defcon.reqKnockVal k = decryptXorKey[k].toNat := defcon_reqKnockVal hk
  have hknock : knock k = .ioctl (ioZ decryptXorKey[k].toNat) := by
    simp [knock, Vector.getD, hk]
  simp [hknock, step, ioctl, knocked, accepted, reqKnocks, Nat.not_le.mpr hk, hval,
    unmaskedKey_succ _ hk]

/-- After so many knocks. -/
theorem run_knocks (f : FlagFile) {k : Nat} (hk : k ≤ 32) :
    run c readSize (accepted f) ((List.range k).map knock) = knocked f k := by
  induction k with
  | zero => exact (knocked_zero f).symm
  | succ k ih =>
    rw [List.range_succ, List.map_append, run_append, ih (Nat.le_of_succ_le hk)]
    exact congrArg Prod.fst (step_knock f hk)

theorem replies_knocks (f : FlagFile) {k : Nat} (hk : k ≤ 32) :
    replies c readSize (accepted f) ((List.range k).map knock) = List.replicate k ⟨0, []⟩ := by
  induction k with
  | zero => rfl
  | succ k ih =>
    rw [List.range_succ, List.map_append, replies_append, ih (Nat.le_of_succ_le hk),
      run_knocks f (Nat.le_of_succ_le hk), List.replicate_succ']
    simp [replies, step_knock f hk]

/-- **The flag reaches the player.** The server accepts the module it built, and 32 knocks and a
read of 128 bytes are then answered with the text of the flag file, whatever was drawn. -/
theorem flag_delivered (c : Cipher) (key : Key) (iv : Block) (readLen : UInt32) (tempFlag : Flag)
    (junk : List UInt8) :
    let f := generateFlagFile c key iv readLen tempFlag
    ∃ s, checkKernelModule c f junk (init f.flag) = some s ∧
      replies c f.readLen s ((List.range 32).map knock ++ [.read 128]) =
        List.replicate 32 ⟨0, []⟩ ++ [⟨128, tempFlag.toList⟩] := by
  intro f
  have hread : f.readLen ≤ 128 := by
    have hmod := Nat.mod_lt readLen.toNat (show 0 < 128 - 10 by decide)
    change readLen.toNat % (128 - 10) + 10 ≤ 128
    omega
  have hlen : (c.iEnc256CBC key iv (128 >>> 4) tempFlag.toList).1.length = 128 :=
    c.iEnc256CBC_length key iv (128 >>> 4) tempFlag.toList
  have hflag : f.flag.toList = (c.iEnc256CBC key iv (128 >>> 4) tempFlag.toList).1 := by
    change (window 0 128 _).toList = _
    rw [window_toList 0 (Nat.le_of_eq hlen.symm), List.take_of_length_le (Nat.le_of_eq hlen)]
  have hplain : (c.iDec256CBC key iv (128 >>> 4) f.flag.toList).1 = tempFlag.toList := by
    rw [hflag, c.iDec256CBC_iEnc256CBC key iv (n := 128 >>> 4) Vector.length_toList]
  refine ⟨accepted f, checkKernelModule_init f junk hread, ?_⟩
  rw [replies_append, replies_knocks f (Nat.le_refl 32), run_knocks f (Nat.le_refl 32), knocked,
    unmaskedKey_all]
  have hread : (read c f.readLen { accepted f with decKey := f.key, knockCount := 32 } 128).2 =
      ⟨128, tempFlag.toList⟩ := congrArg (Reply.mk 128) hplain
  rw [replies, step, hread]
  rfl

end

end Quals2017.Liberty.Device
