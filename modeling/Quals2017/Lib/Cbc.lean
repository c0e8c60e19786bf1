import Mathlib.Data.List.Basic

/-!
# Cipher block chaining

A block is combined with the one that was sent before it and then enciphered. `Chain` is what the
mode asks for: a block cipher with its inverse, and a way of combining that undoes itself.

* `decrypt_encrypt`: the blocks come back, and both ends keep the same block for the next message.
* `encrypt_length`.
-/

namespace Quals2017.Lib.Cbc

/-- A block cipher under one key, and how blocks are combined. -/
structure Chain (β : Type) where
  enc : β → β
  dec : β → β
  mix : β → β → β
  dec_enc : ∀ b, dec (enc b) = b
  mix_mix : ∀ b c, mix (mix b c) c = b

namespace Chain

variable {β : Type} (c : Chain β)

/-- The enciphered blocks, and the last of them. -/
def encrypt : β → List β → List β × β
  | iv, [] => ([], iv)
  | iv, b :: bs =>
    let out := c.enc (c.mix b iv)
    let (rest, iv') := encrypt out bs
    (out :: rest, iv')

/-- The deciphered blocks, and the last enciphered one. -/
def decrypt : β → List β → List β × β
  | iv, [] => ([], iv)
  | iv, b :: bs =>
    let (rest, iv') := decrypt b bs
    (c.mix (c.dec b) iv :: rest, iv')

@[simp] theorem encrypt_length (iv : β) (bs : List β) : (c.encrypt iv bs).1.length = bs.length := by
  induction bs generalizing iv with
  | nil => rfl
  | cons b bs ih => simp only [encrypt, List.length_cons, ih]

@[simp] theorem decrypt_length (iv : β) (bs : List β) : (c.decrypt iv bs).1.length = bs.length := by
  induction bs generalizing iv with
  | nil => rfl
  | cons b bs ih => simp only [decrypt, List.length_cons, ih]

/-- **The two ends keep in step**: the message comes back and the chaining block is the same. -/
theorem decrypt_encrypt (iv : β) (bs : List β) :
    c.decrypt iv (c.encrypt iv bs).1 = (bs, (c.encrypt iv bs).2) := by
  induction bs generalizing iv with
  | nil => rfl
  | cons b bs ih => simp only [encrypt, decrypt, ih, c.dec_enc, c.mix_mix]

/-- Where the block cipher is onto, every message is the encipherment of one. -/
theorem encrypt_decrypt (h : ∀ b, c.enc (c.dec b) = b) (iv : β) (bs : List β) :
    (c.encrypt iv (c.decrypt iv bs).1).1 = bs := by
  induction bs generalizing iv with
  | nil => rfl
  | cons b bs ih => simp only [encrypt, decrypt, c.mix_mix, h, ih]

end Chain

end Quals2017.Lib.Cbc
