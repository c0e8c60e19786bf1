import Quals2017.Lib.Stretch
import Quals2017.Liberty.Ratchet

/-!
# The length in an encrypted response (`liberty/server/liberty-server.c:51-76,145-186`)

`ReadAESResponse` as it is for any bytes of a client: `ReadResponse` checks the outer length, and
the length inside the message is compared with the size of the buffer, but not with what has been
decrypted. What lies behind the decrypted bytes on the stack is `stack`.

* `payload_of_contained`: a response that is contained is the message of `Ratchet`.
* `response_contained_iff`: **a response that is accepted has been decrypted** if and only if its
  length field is honest.
-/

namespace Quals2017.Liberty.AesResponse

open Quals2017.Lib Quals2017.Lib.Chunks Quals2017.Lib.LittleEndian Quals2017.Lib.Stretch
open Quals2017.Liberty.Ratchet

/-- `ReadResponse`: its result, and the bytes it stores. A call of `read` that gets nothing is the
end of the input. -/
def readResponse (stdin : List UInt8) (cut : Nat → Nat) (maxLen : Int) : Int × List UInt8 :=
  match readBytes 4 stdin with
  | none => (0, [])
  | some (head, rest) =>
    let len := (BitVec.ofNat 32 (leVal head)).toInt
    if len < 0 ∨ maxLen < len then (0, [])
    else
      match readLoop cut len.toNat len.toNat rest with
      | none => (0, [])
      | some (bytes, _) => (len, bytes)

/-- What `ReadAESResponse` returns and leaves: the bytes at `Payload`, the bytes it has decrypted
and the keys. -/
structure Result where
  ret : Int
  payload : List UInt8
  decrypted : List UInt8
  keys : Keys

/-- `ReadAESResponse`. -/
def readAESResponse (c : Cipher) (p : Keys) (connectionAES : Bool) (stack : Nat → UInt8)
    (stdin : List UInt8) (cut : Nat → Nat) (maxLen : Int) : Result :=
  let (payloadLen, payload) := readResponse stdin cut maxLen
  if payloadLen = 0 then ⟨-1, payload, [], p⟩
  else if connectionAES = false then ⟨payloadLen, payload, [], p⟩
  else if payloadLen.toNat &&& 0x0F ≠ 0 ∨ maxPayloadSize < payloadLen.toNat then ⟨0, payload, [], p⟩
  else
    let (decrypted, iv) := c.iDec256CBC p.decKey p.decIV (payloadLen.toNat >>> 4) payload
    let outBuffer := overlay stack 0 decrypted
    let len := leVal (stretch outBuffer 0 2)
    if maxPayloadSize < len then ⟨0, payload, decrypted, { p with decIV := iv }⟩
    else ⟨len, stretch outBuffer (2 + 32) len, decrypted,
      { p with decKey := window 0 32 (stretch outBuffer 2 32), decIV := iv }⟩

/-- An accepted response is not longer than what has been decrypted behind its header. -/
def Contained (r : Result) : Prop := 0 < r.ret → r.ret ≤ (r.decrypted.drop (2 + 32)).length

/-! ## What is read -/

theorem readLoop_length {cut : Nat → Nat} : ∀ {fuel n : Nat} {queue bytes rest : List UInt8},
    n ≤ fuel → readLoop cut fuel n queue = some (bytes, rest) → bytes.length = n := by
  intro fuel
  induction fuel with
  | zero =>
    intro n queue bytes rest hn h
    obtain ⟨rfl, -⟩ := Prod.mk.inj (Option.some.inj h)
    exact (Nat.le_zero.mp hn).symm
  | succ fuel ih =>
    intro n queue bytes rest hn h
    rw [readLoop] at h
    split_ifs at h with h₀ hq
    · obtain ⟨rfl, -⟩ := Prod.mk.inj (Option.some.inj h)
      exact h₀.symm
    · obtain ⟨⟨bytes', rest'⟩, hloop, hr⟩ := Option.map_eq_some_iff.mp h
      obtain ⟨rfl, -⟩ := Prod.mk.inj hr
      have hpos := List.length_pos_iff.mpr hq
      rw [List.length_append, ih (by omega) hloop, List.length_take]
      omega

/-- **What `ReadResponse` returns** is the number of bytes it has stored. -/
theorem readResponse_length {stdin : List UInt8} {cut : Nat → Nat} {maxLen : Int} :
    (readResponse stdin cut maxLen).1 = (readResponse stdin cut maxLen).2.length := by
  unfold readResponse
  split
  · rfl
  · rename_i head rest _
    simp only
    split_ifs with hlen
    · rfl
    · split
      · rfl
      · rename_i bytes rest' hloop
        have hbytes := readLoop_length (Nat.le_refl _) hloop
        simp only
        omega

/-- The length inside a message, in its first two bytes. -/
def innerLength (c : Cipher) (p : Keys) (body : List UInt8) : Nat :=
  leVal ((c.iDec256CBC p.decKey p.decIV (body.length >>> 4) body).1.take 2)

/-- A body that can be decrypted has its length field in front of as many bytes, unless the field is
0 or more than the buffer takes. -/
def Honest (c : Cipher) (p : Keys) (body : List UInt8) : Prop :=
  body ≠ [] → body.length &&& 0x0F = 0 → body.length ≤ maxPayloadSize →
    0 < innerLength c p body → innerLength c p body ≤ maxPayloadSize →
      innerLength c p body + 34 ≤ body.length

variable {c : Cipher} {p : Keys} {body : List UInt8}

theorem iDec256CBC_length (c : Cipher) (k : Key) (iv : Block) (n : Nat) (data : List UInt8) :
    (c.iDec256CBC k iv n data).1.length = n * 16 := by
  rw [Cipher.iDec256CBC, flat_length, Cbc.Chain.decrypt_length, chunks_length]

/-- A body of whole blocks is decrypted as a whole. -/
theorem decrypted_length (hblocks : body.length &&& 0x0F = 0) :
    (c.iDec256CBC p.decKey p.decIV (body.length >>> 4) body).1.length = body.length := by
  have hand : body.length &&& 0x0F = body.length % 16 := Nat.and_two_pow_sub_one_eq_mod _ 4
  rw [iDec256CBC_length, Nat.shiftRight_eq_div_pow]
  omega

variable {stack : Nat → UInt8} {stdin : List UInt8} {cut : Nat → Nat} {maxLen : Int}

theorem readResponse_eq (hbody : (readResponse stdin cut maxLen).2 = body) :
    readResponse stdin cut maxLen = ((body.length : Int), body) := by
  refine Prod.ext ?_ hbody
  rw [readResponse_length, hbody]

/-- A response that is not decrypted is not accepted. -/
theorem readAESResponse_ret (hbody : (readResponse stdin cut maxLen).2 = body)
    (hbad : body = [] ∨ body.length &&& 0x0F ≠ 0 ∨ maxPayloadSize < body.length) :
    (readAESResponse c p true stack stdin cut maxLen).ret ≤ 0 := by
  unfold readAESResponse
  rw [readResponse_eq hbody]
  simp only [Int.toNat_natCast]
  by_cases hzero : body = []
  · rw [if_pos (by rw [hzero]; rfl)]
    exact (by decide : (-1 : Int) ≤ 0)
  · have hne := List.length_pos_iff.mpr hzero
    rw [if_neg (by omega), if_neg (by decide), if_pos (hbad.resolve_left hzero)]

/-- A response that is decrypted. -/
theorem readAESResponse_eq (hbody : (readResponse stdin cut maxLen).2 = body) (hne : body ≠ [])
    (hblocks : body.length &&& 0x0F = 0) (hfit : body.length ≤ maxPayloadSize) :
    readAESResponse c p true stack stdin cut maxLen =
      let out := c.iDec256CBC p.decKey p.decIV (body.length >>> 4) body
      if maxPayloadSize < innerLength c p body then ⟨0, body, out.1, { p with decIV := out.2 }⟩
      else ⟨innerLength c p body, stretch (overlay stack 0 out.1) (2 + 32) (innerLength c p body),
        out.1, { p with
          decKey := window 0 32 (stretch (overlay stack 0 out.1) 2 32), decIV := out.2 }⟩ := by
  have hpos := List.length_pos_iff.mpr hne
  have hand : body.length &&& 0x0F = body.length % 16 := Nat.and_two_pow_sub_one_eq_mod _ 4
  have hlen := decrypted_length (c := c) (p := p) hblocks
  have hfield : stretch (overlay stack 0 (c.iDec256CBC p.decKey p.decIV (body.length >>> 4) body).1)
      0 2 = (c.iDec256CBC p.decKey p.decIV (body.length >>> 4) body).1.take 2 :=
    stretch_overlay_part stack 0 _ (k := 0) (by omega)
  have hbad : ¬(body.length &&& 0x0F ≠ 0 ∨ maxPayloadSize < body.length) :=
    not_or.mpr ⟨not_not.mpr hblocks, Nat.not_lt.mpr hfit⟩
  unfold readAESResponse
  rw [readResponse_eq hbody]
  simp only [Int.toNat_natCast, hfield]
  rw [if_neg (by omega), if_neg (by decide), if_neg hbad]
  rfl

theorem contained_iff_honest (hbody : (readResponse stdin cut maxLen).2 = body) :
    Contained (readAESResponse c p true stack stdin cut maxLen) ↔ Honest c p body := by
  unfold Contained Honest
  by_cases hbad : body = [] ∨ body.length &&& 0x0F ≠ 0 ∨ maxPayloadSize < body.length
  · have hret := @readAESResponse_ret c p _ stack _ _ _ hbody hbad
    refine iff_of_true (fun hpos => absurd hpos (by omega)) fun hne hblocks hfit => ?_
    rcases hbad with h | h | h
    · exact absurd h hne
    · exact absurd hblocks h
    · exact absurd hfit (Nat.not_le.mpr h)
  · obtain ⟨hne, hbad⟩ := not_or.mp hbad
    obtain ⟨hblocks, hfit⟩ := not_or.mp hbad
    rw [not_not] at hblocks
    rw [Nat.not_lt] at hfit
    have hlen := decrypted_length (c := c) (p := p) hblocks
    rw [readAESResponse_eq hbody hne hblocks hfit]
    simp only [hne, hblocks, hfit, ne_eq, not_false_eq_true, true_imp_iff]
    split_ifs with hmax
    · exact iff_of_true (fun h => absurd h (Int.lt_irrefl 0)) fun _ h =>
        absurd h (Nat.not_le.mpr hmax)
    · rw [List.length_drop, hlen]
      simp only
      omega

/-- **The bytes of a contained response** are those of the message. -/
theorem payload_of_contained
    (hpos : 0 < (readAESResponse c p true stack stdin cut maxLen).ret)
    (hcont : Contained (readAESResponse c p true stack stdin cut maxLen)) :
    (readAESResponse c p true stack stdin cut maxLen).payload =
      message (unpack c p (readResponse stdin cut maxLen).2).1 := by
  generalize hbody : (readResponse stdin cut maxLen).2 = body
  have hgood : ¬(body = [] ∨ body.length &&& 0x0F ≠ 0 ∨ maxPayloadSize < body.length) := fun hbad =>
    absurd (readAESResponse_ret hbody hbad) (Int.not_le.mpr hpos)
  obtain ⟨hne, hbad⟩ := not_or.mp hgood
  obtain ⟨hblocks, hfit⟩ := not_or.mp hbad
  rw [not_not] at hblocks
  rw [Nat.not_lt] at hfit
  have hlen := decrypted_length (c := c) (p := p) hblocks
  rw [readAESResponse_eq hbody hne hblocks hfit] at hpos hcont ⊢
  simp only at hpos hcont ⊢
  split_ifs at hpos hcont ⊢ with hmax
  · exact absurd hpos (Int.lt_irrefl 0)
  · have hin : innerLength c p body + 34 ≤ body.length := by
      have hle := hcont hpos
      rw [List.length_drop, hlen] at hle
      simp only at hle hpos
      omega
    exact stretch_overlay_part stack 0 _ (k := 34) (by omega)

/-- **An accepted response has been decrypted** if and only if its length field is honest. -/
theorem response_contained_iff (c : Cipher) (p : Keys) (stack : Nat → UInt8) (stdin : List UInt8)
    (cut : Nat → Nat) (maxLen : Int) :
    Contained (readAESResponse c p true stack stdin cut maxLen) ↔
      Honest c p (readResponse stdin cut maxLen).2 :=
  contained_iff_honest rfl

/-- Keys and chaining blocks of zeros. -/
def zeroKeys : Keys :=
  ⟨Vector.replicate 32 0, Vector.replicate 32 0, Vector.replicate 16 0, Vector.replicate 16 0⟩

/-- A block that says it holds 4096 bytes. -/
def longBody : List UInt8 := [0, 16] ++ List.replicate 14 0

/-- **Sixteen bytes are taken for 4096.** -/
theorem overread : ¬∀ (c : Cipher) (p : Keys) (stack : Nat → UInt8) (stdin : List UInt8)
    (cut : Nat → Nat) (maxLen : Int),
    Contained (readAESResponse c p true stack stdin cut maxLen) := by
  intro hall
  have hbody : (readResponse ([16, 0, 0, 0] ++ longBody) id 4096).2 = longBody := by decide
  have hlen : innerLength toyCipher zeroKeys longBody = 4096 := by decide +kernel
  have hhonest := (contained_iff_honest hbody).mp
    (hall toyCipher zeroKeys (fun _ => 0) ([16, 0, 0, 0] ++ longBody) id 4096)
  have hle := hhonest (by decide) (by decide) (by decide) (by rw [hlen]; decide)
    (by rw [hlen]; decide)
  rw [hlen] at hle
  exact absurd hle (by decide)

end Quals2017.Liberty.AesResponse
