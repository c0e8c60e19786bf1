import Mathlib.FieldTheory.Finite.Basic
import Mathlib.NumberTheory.LucasLehmer
import Quals2017.Godzilla.Envelope
import Quals2017.Godzilla.ModExp

/-!
# The command envelope, there and back (`godzilla/src/main.cpp:141-259`, `server/main.cpp:61-117`)

The length of a command goes over the wire as a byte, and so does the length that the cipher is
given. A command is two bytes longer than its data, so these lengths wrap for the two longest ones,
and the server reads 0 bytes or 1 of a command of 256 or 257.

* `ClientCommand.create_ok`: the three writes of a command.
* `receive_sent`, `decryptCommand_ok`: what the server reads, and what it makes of the header.
* `KeyPair.outcome`: the server's answer to any command.
* `KeyPair.length_of_recovers`: what it recovers has at most 255 bytes.
* **`envelope_recovers_iff`**: it recovers the command exactly when the data has at most 253 bytes.
* `KeyPair.of_inverse`: the operations of the two sides are inverses where the exponents are.
-/

namespace Quals2017.Godzilla

open Quals2017.Lib Quals2017.Lib.Limbs StreamData

/-! ## The command -/

/-- The bytes of a command. -/
def ClientCommand.bytes (c : ClientCommand) (dataLen : Byte) (pData : Bytes dataLen.toNat) :
    List Byte :=
  c.number :: dataLen :: pData.val

theorem ClientCommand.bytes_length (c : ClientCommand) (dataLen : Byte)
    (pData : Bytes dataLen.toNat) : (c.bytes dataLen pData).length = dataLen.toNat + 2 := by
  rw [bytes, List.length_cons, List.length_cons, pData.2]

/-- A write for which there is room. -/
theorem Represents.write_step {s : StreamData} {q : Fifo Byte} (h : Represents s q)
    (junk : StreamData → Nat → Byte) (data : List Byte)
    (hle : q.all.length + data.length ≤ capacity) :
    ∃ s', s.write junk data = (s', .ok data.length) ∧ Represents s' (q.push data) :=
  ⟨_, Prod.ext rfl (h.write_ok junk hle).2, (h.write_ok junk hle).1⟩

/-- **A command is written to the stream.** -/
theorem ClientCommand.create_ok (junk : StreamData → Nat → Byte) (c : ClientCommand)
    (dataLen : Byte) (pData : Bytes dataLen.toNat) :
    ∃ s, c.create junk dataLen pData init = .ok s ∧
      Represents s ⟨[], c.bytes dataLen pData⟩ := by
  have hlen := dataLen.isLt
  have hdata := pData.2
  obtain ⟨s₁, hw₁, h₁⟩ := represents_init.write_step junk [c.number] (by simp [capacity_eq])
  obtain ⟨s₂, hw₂, h₂⟩ := h₁.write_step junk [dataLen] (by simp [capacity_eq])
  obtain ⟨s₃, hw₃, h₃⟩ := h₂.write_step junk pData.val (by
    simp only [Fifo.all_push, Fifo.all_empty, List.nil_append, List.length_append,
      List.length_singleton, capacity_eq]
    omega)
  refine ⟨s₃, ?_, h₃⟩
  unfold create createCommand
  rw [hw₁]
  simp only [Except.mapError, bind, Except.bind]
  rw [hw₂]
  simp only
  rw [hw₃]
  rfl

/-- What the client sees of a stream with a command. -/
theorem Represents.peak_all {s : StreamData} {bytes : List Byte}
    (h : Represents s ⟨[], bytes⟩) :
    s.getLength = bytes.length ∧ (s.peak s.getLength).2 = .ok bytes := by
  have hlen : s.getLength = bytes.length := h.writePos
  refine ⟨hlen, ?_⟩
  rw [hlen, StreamData.peak, h.read_reply (Nat.le_refl _) true]
  exact congrArg Except.ok List.take_length

/-! ## The client's half -/

/-- The number of a header, on the client. -/
theorem Rsa.setBytes_toNat {header : List Byte} (h : header.length = sizeofHeader) :
    (Rsa.setBytes 0 header).2.toNat = val header := by
  have hlt := val_lt header
  have hsize : ¬ header.length ≠ Rsa.rsaKeyBits / 8 := not_not_intro h
  rw [h] at hlt
  rw [Rsa.setBytes, if_neg hsize, BitVec.toNat_ofNat, Rsa.toNat_zero, Nat.zero_div, Nat.zero_mul,
    Nat.zero_add]
  exact Nat.mod_eq_of_lt (Nat.lt_trans hlt (Nat.pow_lt_pow_right (by decide) (by decide)))

/-- What the client sends for a header and a command. -/
def sent (header bytes : List Byte) (cipher : Rsa.RSANum) : List Byte :=
  limbs 8 sizeofHeader cipher.toNat ++ BitVec.ofNat 8 bytes.length ::
    encryptRequestData (keyOf (forwardKeyOf header)) bytes (BitVec.ofNat 8 bytes.length)

theorem buildServerCommand_ok {privateExponent modulus cipher : Rsa.RSANum}
    {header bytes : List Byte} {s : StreamData} (hs : Represents s ⟨[], bytes⟩)
    (hheader : header.length = sizeofHeader) (hlt : val header < modulus.toNat)
    (hrsa : Rsa.modExp (Rsa.setBytes 0 header).2 privateExponent modulus = .ok cipher) :
    buildServerCommand privateExponent modulus header s = .ok (some (sent header bytes cipher)) := by
  obtain ⟨hlen, hpeak⟩ := hs.peak_all
  have hinput : ¬ (Rsa.setBytes 0 header).2 ≥ modulus := by
    rw [ge_iff_le, BitVec.le_def, Rsa.setBytes_toNat hheader]
    exact Nat.not_le_of_lt hlt
  have hsize : keySize * 4 = sizeofHeader := rfl
  have hread : Rsa.readBytes cipher sizeofHeader = some (limbs 8 sizeofHeader cipher.toNat) :=
    if_neg (by decide)
  unfold buildServerCommand
  rw [hpeak, hlen, hsize]
  simp only [Except.mapError, bind, Except.bind, ne_eq, not_true_eq_false, if_false]
  rw [if_neg hinput, hrsa]
  simp only
  rw [hread]
  rfl

/-- **What the server reads of it**: the bytes that the length names. -/
theorem receive_sent (header bytes : List Byte) (cipher : Rsa.RSANum) :
    receive (sent header bytes cipher) = some (limbs 8 sizeofHeader cipher.toNat,
      BitVec.ofNat 8 bytes.length,
      (encryptRequestData (keyOf (forwardKeyOf header)) bytes (BitVec.ofNat 8 bytes.length)).take
        (bytes.length % 2 ^ 8)) := by
  have hhead : (limbs 8 sizeofHeader cipher.toNat).length = sizeofHeader := limbs_length _ _ _
  have hle : ¬ (encryptRequestData (keyOf (forwardKeyOf header)) bytes
      (BitVec.ofNat 8 bytes.length)).length < (BitVec.ofNat 8 bytes.length).toNat := by
    rw [encryptRequestData_length, BitVec.toNat_ofNat]
    exact Nat.not_lt_of_le (Nat.mod_le _ _)
  unfold receive sent
  rw [List.drop_left' hhead]
  simp only
  rw [if_neg hle, List.take_left' hhead, BitVec.toNat_ofNat]

/-! ## The server's half -/

/-- The number of a header, on the server. -/
theorem BigInt.setBytes_header {header : List Byte} (h : header.length = sizeofHeader) :
    ((BigInt.new (BitVec.ofNat 32 keySize)).setBytes header).2.toNat = val header ∧
      ((BigInt.new (BitVec.ofNat 32 keySize)).setBytes header).2.length = keySize := by
  have hsize : header.length = (BigInt.new (BitVec.ofNat 32 keySize)).length * 4 := by
    rw [h, BigInt.length_new]
    rfl
  unfold BigInt.setBytes
  rw [dif_pos hsize]
  refine ⟨?_, ?_⟩
  · rw [BigInt.toNat_put, val_wordsOf (by rw [h]; rfl)]
  · rw [BigInt.length_put, BigInt.length_new]
    rfl

/-- Words copied out and back. -/
theorem wordsOf_bytesOf (xs : List Word) : wordsOf (bytesOf xs) = xs := by
  refine val_inj ?_ ?_
  · rw [wordsOf_length, bytesOf_length, Nat.mul_div_cancel_left _ (by decide)]
  · rw [val_wordsOf (by rw [bytesOf_length, Nat.mul_mod_right]), val_bytesOf]

section Fill

variable (responseKey forwardKey : Bytes 16) (padding : Bytes 40)

theorem magicOf_fill :
    magicOf (RequestHeader.fill responseKey forwardKey padding).bytes = encryptMagic := by
  have hfront : (responseKey.val ++ forwardKey.val).length = 32 := by
    rw [List.length_append, responseKey.2, forwardKey.2]
  have hmagic : (bytesOf encryptMagic).length = 16 := bytesOf_length _
  unfold magicOf RequestHeader.bytes RequestHeader.fill
  rw [← List.append_assoc, List.drop_left' hfront, List.take_left' hmagic, wordsOf_bytesOf]

theorem zeroOf_fill : zeroOf (RequestHeader.fill responseKey forwardKey padding).bytes = [0, 0] := by
  have hfront : (responseKey.val ++ (forwardKey.val ++ (bytesOf encryptMagic ++
      padding.val))).length = 88 := by
    simp only [List.length_append, responseKey.2, forwardKey.2, padding.2, bytesOf_length]
    rfl
  have hzero : (bytesOf [0, 0]).length = 8 := bytesOf_length _
  have hsplit : (RequestHeader.fill responseKey forwardKey padding).bytes = (responseKey.val ++
      (forwardKey.val ++ (bytesOf encryptMagic ++ padding.val))) ++ bytesOf [0, 0] := by
    simp only [RequestHeader.bytes, RequestHeader.fill, List.append_assoc]
  rw [zeroOf, hsplit, List.drop_left' hfront, List.take_of_length_le (Nat.le_of_eq hzero),
    wordsOf_bytesOf]

end Fill

theorem BigInt.power_length {base exponent modulus result r : BigInt}
    (h : BigInt.power base exponent modulus result = .ok r) : r.length = result.length := by
  unfold BigInt.power at h
  dsimp only [bind, Except.bind] at h
  split at h
  · cases h
  split at h
  · cases h
  · rename_i s _
    unfold BigInt.assign at h
    split at h
    · cases h
      exact BigInt.length_put _ _ _
    · cases h

/-- The server's operation fills as many words as the key has. -/
theorem serverEncryptDecrypt_length {modulus input r : BigInt}
    (h : serverEncryptDecrypt modulus input = .ok r) : r.length = keySize := by
  unfold serverEncryptDecrypt at h
  dsimp only [bind, Except.bind] at h
  split at h
  · cases h
  · rw [BigInt.power_length h, BigInt.length_new]
    rfl

/-- **What the server makes of a header** whose number comes out as that of a filled one. -/
theorem decryptCommand_ok {modulus r : BigInt} {header cipher data : List Byte} {cmdLength : Byte}
    (hmodulus : modulus.length = keySize) (hheader : header.length = sizeofHeader)
    (hcipher : cipher.length = sizeofHeader) (hlt : val cipher < modulus.toNat)
    (hrsa : serverEncryptDecrypt modulus
      ((BigInt.new (BitVec.ofNat 32 keySize)).setBytes cipher).2 = .ok r)
    (hr : r.toNat = val header) (hzero : zeroOf header = [0, 0])
    (hmagic : magicOf header = encryptMagic) :
    decryptCommand modulus cipher data cmdLength =
      .ok (true, header, decryptRequestData (keyOf (forwardKeyOf header)) data cmdLength) := by
  obtain ⟨hvalue, hlen⟩ := BigInt.setBytes_header hcipher
  have hrlen := serverEncryptDecrypt_length hrsa
  have hback : r.readBytes (keySize * 4) = some header := by
    rw [BigInt.readBytes, if_neg (by rw [hrlen]; exact not_not_intro rfl)]
    refine congrArg some (val_inj ?_ ((val_bytesOf _).trans hr))
    rw [bytesOf_length, hheader]
    exact congrArg (4 * ·) hrlen
  have hkey : 0 < keySize := by decide
  have hcompare := BigInt.compare_eq (Nat.lt_of_lt_of_eq hkey hlen.symm)
    (Nat.lt_of_lt_of_eq hkey hmodulus.symm)
  have horder : BigInt.order (val cipher) modulus.toNat = -1 := by
    unfold BigInt.order
    rw [if_neg (Nat.lt_asymm hlt), if_pos hlt]
  rw [hvalue, horder] at hcompare
  unfold decryptCommand
  simp only [hcompare, bind, Except.bind]
  rw [if_neg (by decide), hrsa]
  simp only
  rw [hback]
  simp only [Option.getD_some, hzero, hmagic, ne_eq, not_true_eq_false, if_false]
  rfl

/-! ## There and back -/

/-- The keys of the two sides: one modulus, and the server's operation undoes the client's. -/
structure KeyPair (privateExponent modulus : Rsa.RSANum) (serverModulus : BigInt) : Prop where
  length : serverModulus.length = keySize
  same : serverModulus.toNat = modulus.toNat
  inverts : ∀ x : Rsa.RSANum, x.toNat < modulus.toNat →
    ∃ y, Rsa.modExp x privateExponent modulus = .ok y ∧
      ∀ input : BigInt, input.length = keySize → input.toNat = y.toNat →
        ∃ r, serverEncryptDecrypt serverModulus input = .ok r ∧ r.toNat = x.toNat

/-- The server finds the bytes of a command in what it is sent. -/
def Recovers (serverModulus : BigInt) (out bytes : List Byte) : Prop :=
  ∃ header cmdLength data, receive out = some (header, cmdLength, data) ∧
    ∃ header', decryptCommand serverModulus header data cmdLength = .ok (true, header', bytes)

/-- The magic numbers are part of the number of a header. -/
theorem val_fill_pos (responseKey forwardKey : Bytes 16) (padding : Bytes 40) :
    0 < val (RequestHeader.fill responseKey forwardKey padding).bytes := by
  refine Nat.pos_of_ne_zero fun hzero => ?_
  have hmem : (0x26 : Byte) ∈ (RequestHeader.fill responseKey forwardKey padding).bytes := by
    unfold RequestHeader.bytes RequestHeader.fill
    refine List.mem_append_right _ (List.mem_append_right _ (List.mem_append_left _ ?_))
    show (0x26 : Byte) ∈ bytesOf encryptMagic
    decide
  exact absurd (val_eq_zero.mp hzero _ hmem) (by decide)

section Envelope

variable {privateExponent modulus : Rsa.RSANum} {serverModulus : BigInt}

theorem KeyPair.modulus_lt (h : KeyPair privateExponent modulus serverModulus) :
    modulus.toNat < 2 ^ 768 := by
  have hlt := serverModulus.toNat_lt
  rw [h.length, h.same] at hlt
  exact hlt

/-- **What the server makes of a command**: the bytes it reads, decrypted. -/
theorem KeyPair.outcome (h : KeyPair privateExponent modulus serverModulus) {s : StreamData}
    {bytes : List Byte} (hs : Represents s ⟨[], bytes⟩) (responseKey forwardKey : Bytes 16)
    (padding : Bytes 40)
    (hlt : val (RequestHeader.fill responseKey forwardKey padding).bytes < modulus.toNat) :
    ∃ out header data, buildServerCommand privateExponent modulus
        (RequestHeader.fill responseKey forwardKey padding).bytes s = .ok (some out) ∧
      data = (encryptRequestData (keyOf (forwardKeyOf
        (RequestHeader.fill responseKey forwardKey padding).bytes)) bytes
          (BitVec.ofNat 8 bytes.length)).take (bytes.length % 2 ^ 8) ∧
      receive out = some (header, BitVec.ofNat 8 bytes.length, data) ∧
      decryptCommand serverModulus header data (BitVec.ofNat 8 bytes.length) =
        .ok (true, (RequestHeader.fill responseKey forwardKey padding).bytes,
          decryptRequestData (keyOf (forwardKeyOf
            (RequestHeader.fill responseKey forwardKey padding).bytes)) data
              (BitVec.ofNat 8 bytes.length)) := by
  have hlen := RequestHeader.fill_length responseKey forwardKey padding
  have hpos := val_fill_pos responseKey forwardKey padding
  have hzero := zeroOf_fill responseKey forwardKey padding
  have hmagic := magicOf_fill responseKey forwardKey padding
  generalize (RequestHeader.fill responseKey forwardKey padding).bytes = header at *
  have hx := Rsa.setBytes_toNat hlen
  obtain ⟨y, hy, hserver⟩ := h.inverts (Rsa.setBytes 0 header).2 (hx ▸ hlt)
  have hyn : y.toNat < modulus.toNat := Rsa.modExp_lt (by omega) h.modulus_lt (hx ▸ hlt) hy
  have hcipher : val (limbs 8 sizeofHeader y.toNat) = y.toNat :=
    val_limbs 8 (Nat.lt_trans hyn h.modulus_lt)
  obtain ⟨hvalue, hlength⟩ := BigInt.setBytes_header (limbs_length 8 sizeofHeader y.toNat)
  obtain ⟨r, hr, hrvalue⟩ := hserver _ hlength (hvalue.trans hcipher)
  refine ⟨_, _, _, buildServerCommand_ok hs hlen hlt hy, rfl, receive_sent header bytes y, ?_⟩
  exact decryptCommand_ok h.length hlen (limbs_length _ _ _)
    (by rw [hcipher, h.same]; exact hyn) hr (hrvalue.trans hx) hzero hmagic

/-- What the server recovers has at most 255 bytes. -/
theorem KeyPair.length_of_recovers (h : KeyPair privateExponent modulus serverModulus)
    {s : StreamData} {bytes out : List Byte} (hs : Represents s ⟨[], bytes⟩)
    {responseKey forwardKey : Bytes 16} {padding : Bytes 40}
    (hlt : val (RequestHeader.fill responseKey forwardKey padding).bytes < modulus.toNat)
    (hout : buildServerCommand privateExponent modulus
      (RequestHeader.fill responseKey forwardKey padding).bytes s = .ok (some out))
    (hrecovers : Recovers serverModulus out bytes) : bytes.length < 256 := by
  obtain ⟨out', header, data, hout', hdata, hreceive, hdecrypt⟩ :=
    h.outcome hs responseKey forwardKey padding hlt
  obtain rfl := Option.some.inj (Except.ok.inj (hout.symm.trans hout'))
  obtain ⟨header', cmdLength, data', hreceive', header'', hdecrypt'⟩ := hrecovers
  obtain ⟨rfl, rfl, rfl⟩ : header = header' ∧ BitVec.ofNat 8 bytes.length = cmdLength ∧
      data = data' := by
    simpa only [Option.some.injEq, Prod.mk.injEq] using hreceive.symm.trans hreceive'
  have hsame := congrArg (fun r => r.2.2.length) (Except.ok.inj (hdecrypt.symm.trans hdecrypt'))
  simp only [decryptRequestData_length, hdata, List.length_take, encryptRequestData_length]
    at hsame
  omega

/-- **The server recovers a command** of the client exactly when its data has at most 253 bytes. -/
theorem envelope_recovers_iff (junk : StreamData → Nat → Byte)
    (h : KeyPair privateExponent modulus serverModulus) (c : ClientCommand) (dataLen : Byte)
    (pData : Bytes dataLen.toNat) (responseKey forwardKey : Bytes 16) (padding : Bytes 40)
    (hlt : val (RequestHeader.fill responseKey forwardKey padding).bytes < modulus.toNat) :
    (∃ pCommand out, c.create junk dataLen pData init = .ok pCommand ∧
      buildServerCommand privateExponent modulus
        (RequestHeader.fill responseKey forwardKey padding).bytes pCommand = .ok (some out) ∧
      Recovers serverModulus out (c.bytes dataLen pData)) ↔ dataLen.toNat ≤ 253 := by
  have hbytes := c.bytes_length dataLen pData
  obtain ⟨s, hs, hrep⟩ := c.create_ok junk dataLen pData
  constructor
  · rintro ⟨s', out, hs', hout, hrecovers⟩
    obtain rfl := Except.ok.inj (hs.symm.trans hs')
    have hlength := h.length_of_recovers hrep hlt hout hrecovers
    omega
  · intro hsmall
    obtain ⟨out, header, data, hout, hdata, hreceive, hdecrypt⟩ :=
      h.outcome hrep responseKey forwardKey padding hlt
    refine ⟨s, out, hs, hout, header, _, data, hreceive,
      (RequestHeader.fill responseKey forwardKey padding).bytes, ?_⟩
    have hmod : (c.bytes dataLen pData).length % 2 ^ 8 = (c.bytes dataLen pData).length :=
      Nat.mod_eq_of_lt (by omega)
    rw [hmod, List.take_of_length_le (Nat.le_of_eq (encryptRequestData_length _ _ _))] at hdata
    rw [hdecrypt, hdata, decrypt_encrypt]
    rw [BitVec.toNat_ofNat, hmod]

end Envelope

/-! ## A key -/

/-- **The two operations are inverses** where the exponents are. -/
theorem KeyPair.of_inverse {privateExponent modulus : Rsa.RSANum} {serverModulus : BigInt}
    (hlength : serverModulus.length = keySize) (hsame : serverModulus.toNat = modulus.toNat)
    (hodd : modulus.toNat % 2 = 1) (h1 : 1 < modulus.toNat)
    (hradix : ∃ i, 2 * i < modulus.toNat ∧ 2 ^ 768 * i % modulus.toNat = 1)
    (hd : privateExponent.toNat < 2 ^ 768)
    (hundo : ∀ x < modulus.toNat, x ^ (privateExponent.toNat * 65537) % modulus.toNat = x) :
    KeyPair privateExponent modulus serverModulus := by
  have hlt := serverModulus.toNat_lt
  rw [hlength, hsame] at hlt
  refine ⟨hlength, hsame, fun x hx => ?_⟩
  obtain ⟨z, r, nprime, hprime, hr, hinv, hnonneg, -⟩ := Rsa.nPrime_ok hodd h1 hlt
  have hconstants : Rsa.Constants modulus r nprime := ⟨hodd, h1, hlt, hprime, hr⟩
  obtain ⟨y, hy, hyvalue⟩ :=
    hconstants.modExp_ok (hnonneg ((hinv.nonneg_iff hodd h1).mpr hradix)) hx hd
  refine ⟨y, hy, fun input hinput hvalue => ?_⟩
  have hkey : 0 < (BigInt.new (BitVec.ofNat 32 keySize)).length := by decide
  obtain ⟨exponent, hexponent, -, hevalue⟩ := BigInt.assignWord_ok hkey 65537
  have hfits := @BigInt.fits_of_length input serverModulus (by rw [hlength, hinput])
    (by rw [hinput]; decide)
  obtain ⟨result, hresult, -, hrvalue⟩ := @BigInt.power_ok input exponent serverModulus
    (BigInt.new (BitVec.ofNat 32 keySize)) (by rw [hsame]; exact h1) hfits
    (by rw [hsame]; exact Nat.le_of_lt hlt)
  refine ⟨result, ?_, ?_⟩
  · unfold serverEncryptDecrypt
    rw [hexponent]
    exact hresult
  · have hword : (65537 : Word).toNat = 65537 := rfl
    rw [hrvalue, hvalue, hyvalue, hevalue, hsame, hword, ← Nat.pow_mod, ← Nat.pow_mul,
      hundo _ hx]

/-- Exponents that are inverse modulo `p - 1`. -/
theorem pow_mod_prime {p k x : ℕ} (hp : p.Prime) (hx : x < p) : x ^ (k * (p - 1) + 1) % p = x := by
  rcases Nat.eq_zero_or_pos x with rfl | hpos
  · rw [Nat.zero_pow (Nat.succ_pos _), Nat.zero_mod]
  · have hcop : Nat.Coprime x p := (Nat.coprime_of_lt_prime hpos.ne' hx hp).symm
    have hfermat : x ^ (p - 1) ≡ 1 [MOD p] := Nat.totient_prime hp ▸ Nat.ModEq.pow_totient hcop
    have hpow : x ^ (k * (p - 1) + 1) ≡ x [MOD p] := by
      calc x ^ (k * (p - 1) + 1) = (x ^ (p - 1)) ^ k * x := by
            rw [Nat.pow_succ, Nat.mul_comm k, Nat.pow_mul]
        _ ≡ 1 ^ k * x [MOD p] := (hfermat.pow k).mul_right x
        _ = x := by rw [Nat.one_pow, Nat.one_mul]
    exact Nat.mod_eq_of_modEq hpow hx

/-- A prime modulus, the Mersenne number of 521 bits. -/
def modulus521 : Rsa.RSANum := BitVec.ofNat 1600 (mersenne 521)

/-- The inverse of 65537 for it. -/
def exponent521 : Rsa.RSANum := BitVec.ofNat 1600 ((49217 * (mersenne 521 - 1) + 1) / 65537)

/-- The modulus on the server. -/
def serverModulus521 : BigInt := ⟨limbs 32 keySize (mersenne 521), by
  rw [limbs_length]
  decide⟩

/-- **A pair of keys.** -/
theorem keyPair521 : KeyPair exponent521 modulus521 serverModulus521 := by
  have hprime : (mersenne 521).Prime := lucas_lehmer_sufficiency 521 (by norm_num) (by norm_num)
  have hvalue : modulus521.toNat = mersenne 521 := by decide +kernel
  refine KeyPair.of_inverse (limbs_length _ _ _) ?_ ?_ ?_ ?_ ?_ ?_
  · rw [hvalue]
    exact val_limbs 32 (by decide +kernel)
  · decide +kernel
  · decide +kernel
  · exact ⟨2 ^ 274, by decide +kernel, by decide +kernel⟩
  · decide +kernel
  · intro x hx
    rw [hvalue] at hx ⊢
    have hinverse : exponent521.toNat * 65537 = 49217 * (mersenne 521 - 1) + 1 := by decide +kernel
    rw [hinverse, pow_mod_prime hprime hx]

/-- The number of a header of zeros and the magic numbers is below the modulus. -/
theorem val_fill_zero : val (RequestHeader.fill ⟨List.replicate 16 0, List.length_replicate⟩
    ⟨List.replicate 16 0, List.length_replicate⟩
    ⟨List.replicate 40 0, List.length_replicate⟩).bytes < modulus521.toNat := by
  decide +kernel

/-- A command without data. -/
theorem envelope_recovers_iff_empty : ∃ pCommand out,
    ClientCommand.getTime.create (fun _ _ => 0) 0 ⟨[], rfl⟩ init = .ok pCommand ∧
      buildServerCommand exponent521 modulus521
        (RequestHeader.fill ⟨List.replicate 16 0, List.length_replicate⟩
          ⟨List.replicate 16 0, List.length_replicate⟩
          ⟨List.replicate 40 0, List.length_replicate⟩).bytes pCommand = .ok (some out) ∧
      Recovers serverModulus521 out [1, 0] :=
  (envelope_recovers_iff (fun _ _ => 0) keyPair521 .getTime 0 ⟨[], rfl⟩ _ _ _ val_fill_zero).mpr
    (by decide)

/-- A command with 254 bytes of data is lost. -/
theorem envelope_loses_254 : ¬ ∀ (privateExponent modulus : Rsa.RSANum) (serverModulus : BigInt)
    (junk : StreamData → Nat → Byte) (c : ClientCommand) (dataLen : Byte)
    (pData : Bytes dataLen.toNat) (responseKey forwardKey : Bytes 16) (padding : Bytes 40),
    KeyPair privateExponent modulus serverModulus →
    val (RequestHeader.fill responseKey forwardKey padding).bytes < modulus.toNat →
    ∃ pCommand out, c.create junk dataLen pData init = .ok pCommand ∧
      buildServerCommand privateExponent modulus
        (RequestHeader.fill responseKey forwardKey padding).bytes pCommand = .ok (some out) ∧
      Recovers serverModulus out (c.bytes dataLen pData) := by
  intro hall
  have hdata : (List.replicate 254 (0 : Byte)).length = (254 : Byte).toNat := by
    rw [List.length_replicate]
    rfl
  obtain ⟨s, out, hs, hout, hrecovers⟩ := hall exponent521 modulus521 serverModulus521
    (fun _ _ => 0) .getTime 254 ⟨List.replicate 254 0, hdata⟩ _ _ _ keyPair521 val_fill_zero
  obtain ⟨s', hs', hrep⟩ := ClientCommand.getTime.create_ok (fun _ _ => 0) 254
    ⟨List.replicate 254 0, hdata⟩
  obtain rfl := Except.ok.inj (hs.symm.trans hs')
  have hlength := keyPair521.length_of_recovers hrep val_fill_zero hout hrecovers
  rw [ClientCommand.bytes_length] at hlength
  exact absurd hlength (by decide)

end Quals2017.Godzilla
