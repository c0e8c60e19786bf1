import Mathlib.Data.Nat.Bitwise
import Mathlib.Tactic.Ring

/-!
# Byte streams read and written one bit at a time

Bits go most significant first inside a byte. `bits` is the bit string of a byte string, and
every reader and writer below is described by it.

* The writer (`BitWriter`, `put`, `flush`) keeps a half-built byte `acc` and a one-bit `mask`.
  `Wrote st bs` says that the bits handed to `st` so far are `bs`. `Wrote.put` is the step and
  `Wrote.flush` the end: the bytes spell `bs` and fewer than eight padding zeros.
* The reader (`BitReader`, `fetch`) keeps the current byte and a one-bit mask over a `Source`
  that delivers bytes on demand. `pending` is the bit string still to be read: what is left of
  the current byte, then the bytes the source still has. `fetch_some` and `fetch_none` give
  what a read of `n` bits returns, by whether `n` bits are pending.
-/

namespace Quals2017.Lib.BitStream

/-! ## Fields of bits -/

/-- The `n` low bits of `x`, most significant first. -/
def field : Nat → Nat → List Bool
  | 0, _ => []
  | n + 1, x => x.testBit n :: field n x

/-- The number a bit string spells over a starting value, most significant bit first. -/
def spell (x : Nat) (bs : List Bool) : Nat :=
  bs.foldl (fun x b => 2 * x + b.toNat) x

/-- The bits of a byte string. -/
def bits (l : List UInt8) : List Bool := l.flatMap fun b => field 8 b.toNat

@[simp] theorem field_length (n x : Nat) : (field n x).length = n := by
  induction n with
  | zero => rfl
  | succ n ih => rw [field, List.length_cons, ih]

@[simp] theorem bits_nil : bits [] = [] := rfl

@[simp] theorem bits_cons (b : UInt8) (l : List UInt8) :
    bits (b :: l) = field 8 b.toNat ++ bits l := rfl

@[simp] theorem bits_append (l₁ l₂ : List UInt8) : bits (l₁ ++ l₂) = bits l₁ ++ bits l₂ :=
  List.flatMap_append

theorem bits_length (l : List UInt8) : (bits l).length = 8 * l.length := by
  induction l with
  | nil => rfl
  | cons b l ih =>
    rw [bits_cons, List.length_append, field_length, ih, List.length_cons]
    ring

/-- Reading a field back gives the number it was taken from, under its width. -/
theorem spell_field (n a x : Nat) : spell a (field n x) = a * 2 ^ n + x % 2 ^ n := by
  induction n generalizing a with
  | zero => simp [field, spell, Nat.mod_one]
  | succ n ih =>
    have hstep : spell a (field (n + 1) x) = spell (2 * a + (x.testBit n).toNat) (field n x) := rfl
    have hmod : x % 2 ^ (n + 1) = (x.testBit n).toNat * 2 ^ n + x % 2 ^ n := by
      rw [Nat.toNat_testBit, pow_succ, Nat.mod_mul, Nat.add_comm, Nat.mul_comm]
    rw [hstep, ih, hmod]
    ring

theorem spell_field_of_lt {n x : Nat} (h : x < 2 ^ n) : spell 0 (field n x) = x := by
  rw [spell_field, Nat.zero_mul, Nat.zero_add, Nat.mod_eq_of_lt h]

/-- A field that is one bit longer, at its low end. -/
theorem field_snoc (n x : Nat) (b : Bool) : field (n + 1) (2 * x + b.toNat) = field n x ++ [b] := by
  have hhalf : (2 * x + b.toNat) / 2 = x := by
    cases b <;> simp only [Bool.toNat_false, Bool.toNat_true] <;> omega
  induction n with
  | zero => cases b <;> simp [field, Nat.testBit_zero]
  | succ n ih => rw [field, ih, Nat.testBit_succ, hhalf, field, List.cons_append]

/-! ## The writer -/

/-- A half-built byte `acc`, the mask of the next bit, and the bytes written so far. -/
structure BitWriter where
  acc : Nat
  mask : Nat
  out : List UInt8

/-- A writer before its first bit. -/
def BitWriter.empty : BitWriter := ⟨0, 128, []⟩

/-- Close the byte when the mask runs out. -/
def BitWriter.advance (st : BitWriter) : BitWriter :=
  if st.mask >>> 1 = 0 then ⟨0, 128, st.out ++ [UInt8.ofNat st.acc]⟩
  else { st with mask := st.mask >>> 1 }

/-- Write one bit. -/
def BitWriter.put (b : Bool) (st : BitWriter) : BitWriter :=
  if b then BitWriter.advance { st with acc := st.acc ||| st.mask } else st.advance

/-- Write a half-built byte out as it stands. -/
def BitWriter.flush (st : BitWriter) : BitWriter :=
  if st.mask ≠ 128 then { st with out := st.out ++ [UInt8.ofNat st.acc] } else st

/-- The bits handed to `st` so far are `bs`: `k` of them wait in `acc`. -/
def Wrote (st : BitWriter) (bs : List Bool) : Prop :=
  ∃ k, k < 8 ∧ st.mask = 2 ^ (7 - k) ∧ st.acc < 256 ∧ (∀ i, i < 8 - k → st.acc.testBit i = false) ∧
    bs = bits st.out ++ (field 8 st.acc).take k

theorem wrote_empty : Wrote BitWriter.empty [] :=
  ⟨0, by decide, rfl, by decide, fun _ _ => Nat.zero_testBit _, rfl⟩

/-- Two bytes that agree from bit `8 - k` up have the same first `k` bits. -/
theorem take_field_congr {x y k : Nat} (hk : k ≤ 8)
    (h : ∀ i, 8 - k ≤ i → i < 8 → x.testBit i = y.testBit i) :
    (field 8 x).take k = (field 8 y).take k := by
  have hget : ∀ z, field 8 z = [z.testBit 7, z.testBit 6, z.testBit 5, z.testBit 4, z.testBit 3,
      z.testBit 2, z.testBit 1, z.testBit 0] := fun _ => rfl
  rw [hget x, hget y]
  rcases k with _ | _ | _ | _ | _ | _ | _ | _ | _ | k
  all_goals first | omega | simp [h]

/-- The next bit of a byte after its first `k`. -/
theorem take_succ_field (x : Nat) {k : Nat} (hk : k < 8) :
    (field 8 x).take (k + 1) = (field 8 x).take k ++ [x.testBit (7 - k)] := by
  have hget : field 8 x = [x.testBit 7, x.testBit 6, x.testBit 5, x.testBit 4, x.testBit 3,
      x.testBit 2, x.testBit 1, x.testBit 0] := rfl
  rw [hget]
  rcases k with _ | _ | _ | _ | _ | _ | _ | _ | k
  all_goals first | omega | rfl

/-- A byte whose low bits are clear ends in that many zeros. -/
theorem field_eq_take_append (x : Nat) {k : Nat} (hk : k ≤ 8)
    (h : ∀ i, i < 8 - k → x.testBit i = false) :
    field 8 x = (field 8 x).take k ++ List.replicate (8 - k) false := by
  have hget : field 8 x = [x.testBit 7, x.testBit 6, x.testBit 5, x.testBit 4, x.testBit 3,
      x.testBit 2, x.testBit 1, x.testBit 0] := rfl
  rw [hget]
  rcases k with _ | _ | _ | _ | _ | _ | _ | _ | _ | k
  all_goals first | omega | simp [h, List.replicate]

/-- Moving the mask on keeps the bits, once `acc` holds the new one. -/
theorem Wrote.advance {st : BitWriter} {k : Nat} (hk : k < 8) (hmask : st.mask = 2 ^ (7 - k))
    (hacc : st.acc < 256) (hlow : ∀ i, i < 7 - k → st.acc.testBit i = false) :
    Wrote st.advance (bits st.out ++ (field 8 st.acc).take (k + 1)) := by
  unfold BitWriter.advance
  by_cases h7 : k = 7
  · subst h7
    rw [if_pos (by rw [hmask]; rfl)]
    refine ⟨0, by decide, rfl, by simp, fun i _ => Nat.zero_testBit i, ?_⟩
    have hnat : (UInt8.ofNat st.acc).toNat = st.acc := UInt8.toNat_ofNat_of_lt' hacc
    rw [bits_append, bits_cons, hnat, List.take_of_length_le (by simp)]
    simp
  · have hshift : st.mask >>> 1 = 2 ^ (7 - (k + 1)) := by
      rw [hmask, Nat.shiftRight_eq_div_pow]
      rw [show 7 - k = (7 - (k + 1)) + 1 by omega, pow_succ]
      simp
    rw [if_neg (by rw [hshift]; exact (Nat.two_pow_pos _).ne')]
    exact ⟨k + 1, by omega, hshift, hacc, fun i hi => hlow i (by omega), rfl⟩

/-- **One written bit** lengthens the bits handed over by that bit. -/
theorem Wrote.put {st : BitWriter} {bs : List Bool} (h : Wrote st bs) (b : Bool) :
    Wrote (st.put b) (bs ++ [b]) := by
  obtain ⟨k, hk, hmask, hacc, hlow, rfl⟩ := h
  cases b with
  | false =>
    have hstep := Wrote.advance hk hmask hacc fun i hi => hlow i (by omega)
    rw [take_succ_field st.acc hk, hlow (7 - k) (by omega), ← List.append_assoc] at hstep
    exact hstep
  | true =>
    have hbit : ∀ i, (st.acc ||| st.mask).testBit i = (st.acc.testBit i || decide (7 - k = i)) := by
      intro i
      rw [Nat.testBit_or, hmask, Nat.testBit_two_pow]
    have hlt : st.acc ||| st.mask < 256 := by
      have hm : st.mask < 2 ^ 8 := by
        rw [hmask]
        exact Nat.pow_lt_pow_right (by decide) (by omega)
      exact Nat.or_lt_two_pow (n := 8) hacc hm
    have hlow' : ∀ i, i < 7 - k → (st.acc ||| st.mask).testBit i = false := fun i hi => by
      rw [hbit, hlow i (by omega), decide_eq_false (by omega), Bool.or_false]
    have hstep := @Wrote.advance { st with acc := st.acc ||| st.mask } k hk hmask hlt hlow'
    have htop : (st.acc ||| st.mask).testBit (7 - k) = true := by
      rw [hbit, decide_eq_true rfl, Bool.or_true]
    have hsame : (field 8 (st.acc ||| st.mask)).take k = (field 8 st.acc).take k :=
      take_field_congr hk.le fun i hi _ => by
        rw [hbit, decide_eq_false (by omega), Bool.or_false]
    rw [take_succ_field _ hk, htop, hsame, ← List.append_assoc] at hstep
    exact hstep

/-- **The flushed bytes** spell the bits handed over, then fewer than eight zeros. -/
theorem Wrote.flush {st : BitWriter} {bs : List Bool} (h : Wrote st bs) :
    ∃ p, p < 8 ∧ bits st.flush.out = bs ++ List.replicate p false := by
  obtain ⟨k, hk, hmask, hacc, hlow, rfl⟩ := h
  unfold BitWriter.flush
  by_cases h0 : k = 0
  · subst h0
    rw [if_neg (by rw [hmask]; decide)]
    exact ⟨0, by decide, by simp⟩
  · have hne : st.mask ≠ 128 := by
      rw [hmask]
      intro he
      have := Nat.pow_right_injective (le_refl 2) (he.trans (show (128 : Nat) = 2 ^ 7 by rfl))
      omega
    rw [if_pos hne]
    refine ⟨8 - k, by omega, ?_⟩
    have hnat : (UInt8.ofNat st.acc).toNat = st.acc := UInt8.toNat_ofNat_of_lt' hacc
    rw [bits_append, bits_cons, hnat, bits_nil, List.append_nil, List.append_assoc,
      ← field_eq_take_append st.acc hk.le hlow]

/-! ## The reader -/

/-- An input that delivers bytes one at a time; `rest` is what it still has. -/
structure Source (σ : Type) where
  next : σ → Option UInt8 × σ
  rest : σ → List UInt8
  next_eq : ∀ s, (next s).1 = (rest s).head?
  rest_next : ∀ s, rest (next s).2 = (rest s).tail

/-- The current byte and the mask of its next bit; no bit of it is left when the mask is 0. -/
structure BitReader where
  buf : Nat
  mask : Nat

section Reader

variable {σ : Type} (src : Source σ)

/-- Read `n` bits over the value `x` read so far; `none` when the source runs out first. -/
def fetch : Nat → Nat → BitReader → σ → Option Nat × BitReader × σ
  | 0, x, rd, s => (some x, rd, s)
  | n + 1, x, rd, s =>
    if rd.mask = 0 then
      match src.next s with
      | (none, s') => (none, rd, s')
      | (some b, s') =>
        fetch n (2 * x + (if b.toNat &&& 128 ≠ 0 then 1 else 0)) ⟨b.toNat, 128 >>> 1⟩ s'
    else
      fetch n (2 * x + (if rd.buf &&& rd.mask ≠ 0 then 1 else 0)) ⟨rd.buf, rd.mask >>> 1⟩ s

/-- The mask is that of a bit of a byte, or spent. -/
def BitReader.WF (rd : BitReader) : Prop := rd.mask = 0 ∨ ∃ j, j < 8 ∧ rd.mask = 2 ^ j

/-- The unread bits of the current byte. -/
def BitReader.cur (rd : BitReader) : List Bool :=
  if rd.mask = 0 then [] else field (Nat.log2 rd.mask + 1) rd.buf

/-- The bits still to be read: what is left of the current byte, then the bytes `l`. -/
def pending (rd : BitReader) (l : List UInt8) : List Bool := rd.cur ++ bits l

theorem cur_of_mask_zero {rd : BitReader} (h : rd.mask = 0) : rd.cur = [] := if_pos h

theorem cur_two_pow (buf j : Nat) : (BitReader.mk buf (2 ^ j)).cur = field (j + 1) buf := by
  unfold BitReader.cur
  rw [if_neg (Nat.two_pow_pos j).ne', Nat.log2_two_pow]

/-- Moving the mask down one place drops the head of the current bits. -/
theorem cur_shift (buf j : Nat) : (BitReader.mk buf (2 ^ j >>> 1)).cur = field j buf := by
  cases j with
  | zero => rfl
  | succ j =>
    have h : 2 ^ (j + 1) >>> 1 = 2 ^ j := by
      rw [Nat.shiftRight_eq_div_pow, pow_succ, pow_one, Nat.mul_div_cancel _ (by decide)]
    rw [h, cur_two_pow]

theorem wf_shift {buf j : Nat} (hj : j < 8) : (BitReader.mk buf (2 ^ j >>> 1)).WF := by
  cases j with
  | zero => exact Or.inl rfl
  | succ j =>
    refine Or.inr ⟨j, by omega, ?_⟩
    show 2 ^ (j + 1) >>> 1 = 2 ^ j
    rw [Nat.shiftRight_eq_div_pow, pow_succ, pow_one, Nat.mul_div_cancel _ (by decide)]

theorem bit_of_and (x j : Nat) :
    (if x &&& 2 ^ j ≠ 0 then 1 else 0) = (x.testBit j).toNat := by
  rw [Nat.and_two_pow]
  cases x.testBit j <;> simp

/-- Reading one bit: the head of the pending bits moves into the value. The bytes `e` behind
`l` are not looked at. -/
theorem fetch_succ {n x : Nat} {rd : BitReader} {s : σ} {l e : List UInt8} (hwf : rd.WF)
    (hr : src.rest s = l ++ e) {b : Bool} {bs : List Bool} (hp : pending rd l = b :: bs) :
    ∃ rd' s' l', fetch src (n + 1) x rd s = fetch src n (2 * x + b.toNat) rd' s' ∧
      rd'.WF ∧ src.rest s' = l' ++ e ∧ pending rd' l' = bs := by
  rcases hwf with h0 | ⟨j, hj, hm⟩
  · rw [pending, cur_of_mask_zero h0, List.nil_append] at hp
    cases l with
    | nil => exact absurd hp (by simp)
    | cons c l =>
      rw [bits_cons] at hp
      obtain ⟨hb, hbs⟩ := List.cons.inj hp
      have h1 := src.next_eq s
      have h2 := src.rest_next s
      rw [hr] at h1 h2
      refine ⟨⟨c.toNat, 2 ^ 7 >>> 1⟩, (src.next s).2, l, ?_, wf_shift (by decide), h2, ?_⟩
      · rw [fetch, if_pos h0, show src.next s = (some c, (src.next s).2) from Prod.ext h1 rfl]
        simp only
        have hbit : (if c.toNat &&& 128 ≠ 0 then 1 else 0) = (c.toNat.testBit 7).toNat :=
          bit_of_and c.toNat 7
        rw [hbit, hb]
        rfl
      · rw [pending, cur_shift]
        exact hbs
  · have hne : rd.mask ≠ 0 := hm ▸ (Nat.two_pow_pos j).ne'
    have hrd : rd = ⟨rd.buf, 2 ^ j⟩ := by rw [← hm]
    rw [pending, hrd, cur_two_pow] at hp
    obtain ⟨hb, hbs⟩ := List.cons.inj hp
    refine ⟨⟨rd.buf, 2 ^ j >>> 1⟩, s, l, ?_, wf_shift hj, hr, ?_⟩
    · rw [fetch, if_neg hne, hm, bit_of_and, hb]
    · rw [pending, cur_shift]
      exact hbs

/-- **A read that finds its bits** returns the number they spell and leaves the rest pending. -/
theorem fetch_some {n : Nat} : ∀ {x : Nat} {rd : BitReader} {s : σ} {l e : List UInt8}
    {bs cs : List Bool}, rd.WF → src.rest s = l ++ e → bs.length = n → pending rd l = bs ++ cs →
    ∃ rd' s' l', fetch src n x rd s = (some (spell x bs), rd', s') ∧ rd'.WF ∧
      src.rest s' = l' ++ e ∧ pending rd' l' = cs := by
  induction n with
  | zero =>
    intro x rd s l e bs cs hwf hr hl hp
    rw [List.length_eq_zero_iff.mp hl] at hp ⊢
    exact ⟨rd, s, l, rfl, hwf, hr, hp⟩
  | succ n ih =>
    intro x rd s l e bs cs hwf hr hl hp
    cases bs with
    | nil => exact absurd hl (by simp)
    | cons b bs =>
      obtain ⟨rd₁, s₁, l₁, hf, hwf₁, hr₁, hp₁⟩ := fetch_succ src hwf hr hp
      obtain ⟨rd₂, s₂, l₂, hf₂, h₂⟩ := ih (x := 2 * x + b.toNat) hwf₁ hr₁ (by simpa using hl) hp₁
      exact ⟨rd₂, s₂, l₂, hf.trans hf₂, h₂⟩

/-- **A read that runs out** returns `none` and leaves nothing pending. -/
theorem fetch_none {n : Nat} : ∀ {x : Nat} {rd : BitReader} {s : σ},
    rd.WF → (pending rd (src.rest s)).length < n →
    ∃ rd' s', fetch src n x rd s = (none, rd', s') ∧ rd'.mask = 0 ∧ src.rest s' = [] := by
  induction n with
  | zero => intro x rd s _ h; exact absurd h (by omega)
  | succ n ih =>
    intro x rd s hwf hlt
    cases hp : pending rd (src.rest s) with
    | cons b bs =>
      obtain ⟨rd₁, s₁, l₁, hf, hwf₁, hr₁, hp₁⟩ :=
        fetch_succ src (n := n) (x := x) (e := []) hwf (by rw [List.append_nil]) hp
      rw [List.append_nil] at hr₁
      rw [hp, List.length_cons] at hlt
      obtain ⟨rd₂, s₂, hf₂, hrest⟩ := ih (x := 2 * x + b.toNat) hwf₁ (by rw [hr₁, hp₁]; omega)
      exact ⟨rd₂, s₂, hf.trans hf₂, hrest⟩
    | nil =>
      obtain ⟨hcur, hrest⟩ := List.append_eq_nil_iff.mp hp
      have h0 : rd.mask = 0 := by
        by_contra hne
        rw [BitReader.cur, if_neg hne] at hcur
        exact absurd hcur (by simp [field])
      have hnil : src.rest s = [] := by
        have := bits_length (src.rest s)
        rw [hrest] at this
        exact List.length_eq_zero_iff.mp (by simpa using this.symm)
      have h1 := src.next_eq s
      have h2 := src.rest_next s
      rw [hnil] at h1 h2
      refine ⟨rd, (src.next s).2, ?_, h0, h2⟩
      rw [fetch, if_pos h0, show src.next s = (none, (src.next s).2) from Prod.ext h1 rfl]

/-- A read takes a state where the steps of `next` take it. -/
theorem fetch_holds {R : σ → σ → Prop} (hrefl : ∀ s, R s s)
    (htrans : ∀ {s₁ s₂ s₃}, R s₁ s₂ → R s₂ s₃ → R s₁ s₃) (hnext : ∀ s, R s (src.next s).2)
    {n : Nat} : ∀ {x : Nat} {rd : BitReader} {s : σ}, R s (fetch src n x rd s).2.2 := by
  induction n with
  | zero => exact fun {x rd s} => hrefl s
  | succ n ih =>
    intro x rd s
    rw [fetch]
    split
    · cases hn : src.next s with
      | mk o s' =>
        have hs' : R s s' := by
          have := hnext s
          rwa [hn] at this
        cases o with
        | none => exact hs'
        | some b => exact htrans hs' ih
    · exact ih

/-- What `next` leaves alone, a read leaves alone. -/
theorem fetch_frame {τ : Type} (f : σ → τ) (hf : ∀ s, f (src.next s).2 = f s) {n x : Nat}
    {rd : BitReader} {s : σ} : f (fetch src n x rd s).2.2 = f s :=
  fetch_holds src (R := fun s s' => f s' = f s) (fun _ => rfl) (fun h₁ h₂ => h₂.trans h₁) hf

end Reader

end Quals2017.Lib.BitStream
