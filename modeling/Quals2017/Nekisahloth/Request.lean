import Mathlib.Tactic.SplitIfs
import Mathlib.Data.List.Basic

/-!
# Requests (`nekisahloth/nekisahloth.cpp:110-196`, `nekisahloth/lib/Base64.cpp:71-131`)

A request is an object with `Data` in base 64, `Key` and possibly `SBox`. Its parts are looked at
one after the other, and the first one that is wrong ends the process.

* `Value` is an entry of an array. What is a number for `isInt` is `int`, a `real` among them.
  `asInt` of what is not there is 0.
* `Buffer` is what `decode` returns, with the size of its allocation. The whole text of a request
  has at most a mebibyte, so that the `int`s of `decode` do not overflow.
* `decode_fits`: **the decoded data is inside of its buffer.**
* `decode_replicate`: how long the data of a long text is.
-/

namespace Quals2017.Nekisahloth

/-- An `unsigned char`. -/
abbrev Byte := BitVec 8

/-! ## `Base64` -/

/-- `base64_chars`. -/
def base64Chars : List Byte :=
  "ABCDEFGHIJKLMNOPQRSTUVWXYZabcdefghijklmnopqrstuvwxyz0123456789+/".toList.map
    fun c => BitVec.ofNat 8 c.toNat

/-- `base64_chars.find(c)`. `npos` is 255 as an `unsigned char`. -/
def find (c : Byte) : Byte :=
  match base64Chars.idxOf? c with
  | some k => BitVec.ofNat 8 k
  | none => 255

/-- `is_base64`. -/
def isBase64 (c : Byte) : Bool :=
  (48 ≤ c && c ≤ 57) || (65 ≤ c && c ≤ 90) || (97 ≤ c && c ≤ 122) || c = 43 || c = 47

/-- `char_array_3` of `char_array_4`. What is not there is 0. -/
def charArray3 (char_array_4 : List Byte) : List Byte :=
  let c := fun k => find (char_array_4.getD k 0)
  [(c 0 <<< 2) + ((c 1 &&& 0x30) >>> 4), ((c 1 &&& 0xf) <<< 4) + ((c 2 &&& 0x3c) >>> 2),
    ((c 2 &&& 0x3) <<< 6) + c 3]

/-- `CurBuffer` up to `CurBufferSize`, and `MaxBufSize`. -/
structure Buffer where
  bytes : List Byte
  maxBufSize : Nat

/-- The buffer grows before up to three bytes are put behind the others. -/
def Buffer.put (b : Buffer) (l : List Byte) : Buffer where
  bytes := b.bytes ++ l
  maxBufSize := if b.maxBufSize ≤ b.bytes.length + 3 then b.maxBufSize + 128 else b.maxBufSize

/-- What is left of the text: `i` characters make `i-1` bytes. -/
def decodeRest (char_array_4 : List Byte) (b : Buffer) : Buffer :=
  if char_array_4.length = 0 then b
  else b.put ((charArray3 char_array_4).take (char_array_4.length - 1))

/-- The loop of `decode`, with the characters that it has gathered. -/
def decodeLoop : List Byte → List Byte → Buffer → Buffer
  | [], char_array_4, b => decodeRest char_array_4 b
  | c :: cs, char_array_4, b =>
    if c = 61 ∨ ¬ isBase64 c then decodeRest char_array_4 b
    else
      let char_array_4 := char_array_4 ++ [c]
      if char_array_4.length = 4 then decodeLoop cs [] (b.put (charArray3 char_array_4))
      else decodeLoop cs char_array_4 b

/-- `decode`. -/
def decode (encoded_string : List Byte) : Buffer := decodeLoop encoded_string [] ⟨[], 128⟩

/-- There is room for one more byte. -/
def Buffer.Fits (b : Buffer) : Prop := b.bytes.length < b.maxBufSize

theorem Buffer.Fits.put {b : Buffer} (h : b.Fits) {l : List Byte} (hl : l.length ≤ 3) :
    (b.put l).Fits := by
  unfold Buffer.Fits Buffer.put at *
  simp only [List.length_append]
  split_ifs <;> omega

theorem fits_decodeRest {b : Buffer} (h : b.Fits) (char_array_4 : List Byte) :
    (decodeRest char_array_4 b).Fits := by
  unfold decodeRest
  split_ifs
  · exact h
  · exact h.put (List.length_take_le' _ _)

theorem fits_decodeLoop : ∀ (cs char_array_4 : List Byte) {b : Buffer}, b.Fits →
    (decodeLoop cs char_array_4 b).Fits
  | [], char_array_4, _, h => fits_decodeRest h char_array_4
  | c :: cs, char_array_4, b, h => by
    rw [decodeLoop]
    split
    · exact fits_decodeRest h char_array_4
    · simp only
      split
      · exact fits_decodeLoop cs [] (h.put (Nat.le_of_eq rfl))
      · exact fits_decodeLoop cs _ h

/-- **What `decode` returns is inside of the buffer.** -/
theorem decode_fits (encoded_string : List Byte) : (decode encoded_string).Fits :=
  fits_decodeLoop encoded_string [] (Nat.lt_of_sub_ne_zero (by simp))

/-- Four characters of base 64 are three bytes. -/
theorem decodeLoop_replicate {c : Byte} (hc : ¬(c = 61 ∨ ¬ isBase64 c)) : ∀ (n : Nat) (b : Buffer),
    (decodeLoop (List.replicate (4 * n) c) [] b).bytes.length = b.bytes.length + 3 * n
  | 0, b => rfl
  | n + 1, b => by
    rw [Nat.mul_succ, List.replicate_succ, List.replicate_succ, List.replicate_succ,
      List.replicate_succ]
    simp only [decodeLoop, if_neg hc]
    simp [decodeLoop_replicate hc n, Buffer.put, charArray3]
    omega

/-- Data of any length. -/
theorem decode_replicate {c : Byte} (hc : ¬(c = 61 ∨ ¬ isBase64 c)) (n : Nat) :
    (decode (List.replicate (4 * n) c)).bytes.length = 3 * n := by
  rw [decode, decodeLoop_replicate hc, List.length_nil, Nat.zero_add]

/-! ## The object -/

/-- An entry of an array. -/
inductive Value
  | null
  | int (n : BitVec 32)
  | other

/-- `isInt`. -/
def Value.isInt : Value → Bool
  | .int _ => true
  | _ => false

/-- `asInt`, of a number or of what is not there. -/
def Value.asInt : Value → BitVec 32
  | .int n => n
  | _ => 0

/-- A member of the object. -/
inductive Member
  | string (s : List Byte)
  | array (vs : List Value)
  | other

/-- The members that are looked at. -/
structure Root where
  data : Option Member
  key : Option Member
  sBox : Option Member

/-- The ways in which a request is refused. -/
inductive Refusal
  | noData
  | base64
  | noKey
  | keyLength
  | keyValue
  | sBoxValue
  deriving DecidableEq

/-- What the client is told. -/
def Refusal.text : Refusal → String
  | noData => "Failed to locate Data\n"
  | base64 => "Invalid base64 data\n"
  | noKey => "Failed to locate Key\n"
  | keyLength => "Invalid key length\n"
  | keyValue => "Invalid key value\n"
  | sBoxValue => "Invalid SBox value\n"

/-- A request that is not refused: `Data`, `root["Key"]`, and `JSONSBox`. -/
structure Request where
  data : Buffer
  key : List Value
  sBox : List Value

/-- `KeyLen`. -/
def keyLen (key : List Value) : BitVec 32 := BitVec.ofNat 32 key.length

/-- `root["Key"]`, if it may be used. -/
def validateKey (root : Root) : Except Refusal (List Value) :=
  match root.key with
  | some (.array key) =>
    if (keyLen key).toInt < 32 ∨ keyLen key &&& 1 = 0 then .error .keyLength
    else if (key.take (keyLen key).toNat).all Value.isInt then .ok key
    else .error .keyValue
  | _ => .error .noKey

/-- `JSONSBox`, if it may be used. It need not be there. -/
def validateSBox (root : Root) : Except Refusal (List Value) :=
  match root.sBox with
  | some (.array vs) => if vs.all Value.isInt then .ok vs else .error .sBoxValue
  | _ => .ok []

/-- The checks of `main`. -/
def validate (root : Root) : Except Refusal Request :=
  match root.data with
  | some (.string s) =>
    let data := decode s
    if data.bytes.length = 0 then .error .base64
    else do
      let key ← validateKey root
      let sBox ← validateSBox root
      return { data, key, sBox }
  | _ => .error .noData

/-- **The data of a request is inside of its buffer.** -/
theorem validate_fits {root : Root} {req : Request} (h : validate root = .ok req) :
    req.data.Fits := by
  unfold validate at h
  split at h
  · next s _ =>
    simp only at h
    split_ifs at h
    cases hk : validateKey root with
    | error e =>
      rw [hk] at h
      exact nomatch h
    | ok key =>
      cases hs : validateSBox root with
      | error e =>
        rw [hk, hs] at h
        exact nomatch h
      | ok sBox =>
        rw [hk, hs] at h
        rw [← Except.ok.inj h]
        exact decode_fits s
  · exact nomatch h

end Quals2017.Nekisahloth
