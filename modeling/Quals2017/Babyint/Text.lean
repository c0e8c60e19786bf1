import Mathlib.Data.Nat.Digits.Lemmas
import Mathlib.Tactic.IntervalCases
import Quals2017.Babyint.Receiver

/-!
# The text of a segment (`babyint/server/main.cpp:243-345`)

A segment is sent as four lines: its sequence number and its offset in decimal, its data in hex, and
whether it is the last one.

* `readNumber_decimal`, `convert_spells`: what the receiver reads of a number and of the data is
  what was written.
* **`receive_text`**: a round of the receiver on the text of a segment delivers the segment.
-/

namespace Quals2017.Babyint

/-- A segment on its way. -/
structure Pdu where
  seq : Nat
  offset : Nat
  data : List Byte
  last : Bool
  deriving DecidableEq, Repr

/-- The receiver takes the segment: the numbers are in range, and there are 1 to 255 bytes. -/
structure Pdu.Valid (x : Pdu) : Prop where
  seq : x.seq ≤ 255
  offset : x.offset ≤ 65535
  pos : 0 < x.data.length
  short : x.data.length ≤ 255

/-- A decimal digit. -/
def digitChar (n : Nat) : Byte := BitVec.ofNat 8 (n + 0x30)

/-- `%u`. -/
def decimal (n : Nat) : List Byte :=
  if n = 0 then [0x30] else ((Nat.digits 10 n).map digitChar).reverse

/-- A hex digit. -/
def hexChar (n : BitVec 4) : Byte :=
  if n < 10 then n.setWidth 8 + 0x30 else n.setWidth 8 - 10 + 0x61

/-- `%02x` of each byte. -/
def hexText (data : List Byte) : List Byte :=
  data.flatMap fun b : Byte => [hexChar ((b >>> 4).setWidth 4), hexChar (b.setWidth 4)]

/-- A hex digit in upper case. -/
def upperHexChar (n : BitVec 4) : Byte :=
  if n < 10 then n.setWidth 8 + 0x30 else n.setWidth 8 - 10 + 0x41

/-- A character that is a hex digit of this value. -/
def HexDigit (c : Byte) (n : BitVec 4) : Prop := c = hexChar n ∨ c = upperHexChar n

/-- Digits that spell bytes, two for each byte, the high one first. -/
inductive Spells : List Byte → List Byte → Prop
  | nil : Spells [] []
  | cons {a b : Byte} {high low : BitVec 4} {digits data : List Byte} :
    HexDigit a high → HexDigit b low → Spells digits data →
      Spells (a :: b :: digits) ((high ++ low) :: data)

/-- `Yes` or `No`. -/
def flagText (last : Bool) : List Byte := if last then [0x59, 0x65, 0x73] else [0x4E, 0x6F]

/-- The four lines. -/
def text (x : Pdu) : List Byte :=
  decimal x.seq ++ 0x0A :: (decimal x.offset ++ 0x0A :: (hexText x.data ++ 0x0A ::
    (flagText x.last ++ [0x0A])))

/-! ## Lines -/

/-- No newline, and no terminator. -/
def Plain (l : List Byte) : Prop := ∀ c ∈ l, c ≠ 0x0A ∧ c ≠ 0

theorem takeLine_line {l : List Byte} (hl : Plain l) (rest : List Byte) {n : Nat}
    (hn : l.length < n) : takeLine n (l ++ 0x0A :: rest) = (l ++ [0x0A], rest) := by
  induction l generalizing n with
  | nil =>
    obtain ⟨n, rfl⟩ := Nat.exists_eq_succ_of_ne_zero (Nat.ne_of_gt hn)
    rfl
  | cons c l ih =>
    obtain ⟨n, rfl⟩ := Nat.exists_eq_succ_of_ne_zero (Nat.ne_of_gt (Nat.zero_lt_of_lt hn))
    rw [List.cons_append, takeLine, if_neg (hl c List.mem_cons_self).1,
      ih (fun d hd => hl d (List.mem_cons_of_mem c hd)) (Nat.lt_of_succ_lt_succ hn)]
    rfl

theorem fgets_line {l : List Byte} (hl : Plain l) (rest : List Byte) {size : Nat}
    (hsize : l.length + 1 < size) :
    fgets size (l ++ 0x0A :: rest) = .ok (l ++ [0x0A], rest) := by
  have hne : l ++ 0x0A :: rest ≠ [] := List.append_ne_nil_of_right_ne_nil l (List.cons_ne_nil _ _)
  rw [fgets, if_neg hne, takeLine_line hl rest (by omega)]

theorem cString_line {l : List Byte} (hl : Plain l) : cString (l ++ [0x0A]) = l ++ [0x0A] := by
  unfold cString
  rw [List.takeWhile_append_of_pos fun c hc => decide_eq_true (hl c hc).2]
  rfl

/-! ## Numbers -/

theorem digitChar_toNat {n : Nat} (hn : n < 10) : (digitChar n - 0x30).toNat = n := by
  interval_cases n <;> rfl

theorem isDigit_digitChar {n : Nat} (hn : n < 10) : isDigit (digitChar n) = true := by
  interval_cases n <;> rfl

theorem isSpace_of_isDigit {c : Byte} (hc : isDigit c = true) : isSpace c = false := by
  simp only [isDigit, Bool.and_eq_true, decide_eq_true_eq, BitVec.le_def] at hc
  simp only [isSpace, Bool.or_eq_false_iff, beq_eq_false_iff_ne, Bool.and_eq_false_iff,
    decide_eq_false_iff_not, BitVec.le_def]
  bv_omega

theorem plain_of_isDigit {l : List Byte} (hl : ∀ c ∈ l, isDigit c = true) : Plain l := by
  intro c hc
  have hdigit := hl c hc
  constructor
  · rintro rfl
    exact absurd hdigit (by decide)
  · rintro rfl
    exact absurd hdigit (by decide)

theorem isDigit_decimal (n : Nat) : ∀ c ∈ decimal n, isDigit c = true := by
  intro c hc
  unfold decimal at hc
  split_ifs at hc
  · rw [List.mem_singleton.mp hc]
    decide
  · rw [List.mem_reverse, List.mem_map] at hc
    obtain ⟨d, hd, rfl⟩ := hc
    exact isDigit_digitChar (Nat.digits_lt_base (by decide) hd)

theorem decimal_ne_nil (n : Nat) : decimal n ≠ [] := by
  unfold decimal
  split_ifs with hn
  · exact List.cons_ne_nil _ _
  · rw [Ne, List.reverse_eq_nil_iff, List.map_eq_nil_iff]
    exact Nat.digits_ne_nil_iff_ne_zero.mpr hn

theorem decimal_length {n : Nat} (hn : n ≤ 65535) : (decimal n).length ≤ 5 := by
  unfold decimal
  split_ifs
  · decide
  · rw [List.length_reverse, List.length_map]
    exact (Nat.digits_length_le_iff (by decide) n).mpr (by omega)

/-- The digits spell the number. -/
theorem digitsVal_decimal (n : Nat) : digitsVal (decimal n ++ [0x0A]) = n := by
  unfold digitsVal
  have hend : [(0x0A : Byte)].takeWhile isDigit = [] := rfl
  rw [List.takeWhile_append_of_pos (isDigit_decimal n), hend, List.append_nil]
  unfold decimal
  split_ifs with hn
  · rw [hn]
    rfl
  · rw [List.foldl_reverse, List.foldr_map]
    calc (Nat.digits 10 n).foldr (fun d v => v * 10 + (digitChar d - 0x30).toNat) 0
        = (Nat.digits 10 n).foldr (fun d v => d + 10 * v) 0 := by
          refine List.foldr_ext _ _ _ fun d hd v => ?_
          rw [digitChar_toNat (Nat.digits_lt_base (by decide) hd)]
          omega
      _ = n := by
          have hdigits := Nat.ofDigits_digits 10 n
          rw [Nat.ofDigits_eq_foldr] at hdigits
          exact hdigits

theorem atol_decimal {n : Nat} (hn : n ≤ 65535) : atol (decimal n ++ [0x0A]) = n := by
  have hval := digitsVal_decimal n
  have hdigit := isDigit_decimal n
  cases hd : decimal n with
  | nil => exact absurd hd (decimal_ne_nil n)
  | cons c cs =>
    rw [hd] at hval hdigit
    have hc := hdigit c List.mem_cons_self
    have hspace := isSpace_of_isDigit hc
    rw [List.cons_append] at hval ⊢
    unfold atol
    rw [List.dropWhile_cons_of_neg (by rw [hspace]; exact Bool.false_ne_true)]
    split
    · next h =>
      cases h
      exact absurd hc (by decide)
    · next h =>
      cases h
      exact absurd hc (by decide)
    · next h _ =>
      rw [hval]
      omega

theorem readNumber_decimal {n bound : Nat} (hn : n ≤ bound) (hbound : bound ≤ 65535)
    (rest : List Byte) : readNumber bound (decimal n ++ 0x0A :: rest) = .ok (n, rest) := by
  have hplain := plain_of_isDigit (isDigit_decimal n)
  have hlen := decimal_length (Nat.le_trans hn hbound)
  have hatol : toUint32 (atol (cString (decimal n ++ [0x0A]))) = n := by
    rw [cString_line hplain, atol_decimal (Nat.le_trans hn hbound), toUint32]
    omega
  rw [readNumber, fgets_line hplain rest (by omega)]
  change (if toUint32 (atol (cString (decimal n ++ [0x0A]))) > bound then _ else _) = _
  rw [hatol, if_neg (Nat.not_lt_of_le hn)]

/-! ## Hex -/

theorem hexChar_ne (n : BitVec 4) : hexChar n ≠ 0x0A ∧ hexChar n ≠ 0 := by
  revert n
  decide

theorem HexDigit.ne_newline {c : Byte} {n : BitVec 4} (h : HexDigit c n) : c ≠ 0x0A := by
  rcases h with rfl | rfl
  · exact (hexChar_ne n).1
  · revert n
    decide

theorem HexDigit.asciiToHex {c : Byte} {n : BitVec 4} (h : HexDigit c n) :
    Babyint.asciiToHex c = n.setWidth 8 := by
  rcases h with rfl | rfl
  · revert n
    decide
  · revert n
    decide

theorem shift_or (high low : BitVec 4) :
    high.setWidth 8 <<< 4 ||| low.setWidth 8 = high ++ low := by
  revert high low
  decide +kernel

theorem halves (b : Byte) : (b >>> 4).setWidth 4 ++ b.setWidth 4 = b := by
  rw [← shift_or]
  ext i hi
  interval_cases i <;> simp

theorem plain_hexText (data : List Byte) : Plain (hexText data) := by
  intro c hc
  obtain ⟨b, -, hb⟩ := List.mem_flatMap.mp hc
  rcases List.mem_cons.mp hb with rfl | hb
  · exact hexChar_ne _
  · rw [List.mem_singleton.mp hb]
    exact hexChar_ne _

theorem spells_hexText (data : List Byte) : Spells (hexText data) data := by
  induction data with
  | nil => exact .nil
  | cons b data ih =>
    have hcons := Spells.cons (.inl (Eq.refl (hexChar ((b >>> 4).setWidth 4))))
      (.inl (Eq.refl (hexChar (b.setWidth 4)))) ih
    rw [halves] at hcons
    exact hcons

theorem Spells.length {digits data : List Byte} (h : Spells digits data) :
    digits.length = 2 * data.length := by
  induction h with
  | nil => rfl
  | cons _ _ _ ih =>
    rw [List.length_cons, List.length_cons, List.length_cons, ih]
    rfl

theorem getD_middle (filled fresh : List Byte) (b : Byte) :
    (filled ++ b :: fresh).getD filled.length 0 = b := by
  rw [List.getD_eq_getElem?_getD, List.getElem?_append_right (Nat.le_refl _), Nat.sub_self]
  rfl

/-- The loop has filled some bytes, and goes on with the digits of the next ones. -/
theorem hexLoop_spells {digits data tail : List Byte} (h : Spells digits data)
    (htail : tail = [] ∨ tail = [0x0A]) (filled fresh : List Byte)
    (hfresh : fresh.length = data.length) (hlen : 2 * (filled.length + data.length) < 2 ^ 32) :
    hexLoop (digits ++ tail) (filled ++ fresh) (2 * filled.length) =
      .ok (filled ++ data, 2 * (filled.length + data.length)) := by
  induction h generalizing filled fresh with
  | nil =>
    rw [List.length_eq_zero_iff.mp hfresh]
    rcases htail with rfl | rfl <;> rfl
  | @cons a b high low digits data ha hb _ ih =>
    cases fresh with
    | nil => cases hfresh
    | cons f fresh =>
      rw [List.length_cons] at hlen
      have hroom : filled.length < (filled ++ f :: fresh).length := by
        rw [List.length_append, List.length_cons]
        omega
      have heven : 2 * filled.length / 2 = filled.length := by omega
      have hodd : (2 * filled.length + 1) / 2 = filled.length := by omega
      rw [List.cons_append, List.cons_append, hexLoop, if_neg ha.ne_newline,
        heven, if_pos hroom, if_pos (by omega), Nat.mod_eq_of_lt (by omega), ha.asciiToHex,
        List.set_append_right _ _ (Nat.le_refl _), Nat.sub_self, List.set_cons_zero, hexLoop,
        if_neg hb.ne_newline, hodd, if_pos (by rw [List.length_append] at hroom ⊢; exact hroom),
        if_neg (by omega), Nat.mod_eq_of_lt (by omega), hb.asciiToHex,
        List.set_append_right _ _ (Nat.le_refl _), Nat.sub_self, List.set_cons_zero,
        getD_middle, shift_or]
      have hstep := ih (filled ++ [high ++ low]) fresh (Nat.succ.inj hfresh) (by
        rw [List.length_append, List.length_singleton]
        omega)
      rw [List.append_assoc, List.append_assoc, List.length_append, List.length_singleton] at hstep
      rw [show 2 * filled.length + 1 + 1 = 2 * (filled.length + 1) by omega]
      rw [List.length_cons, ← Nat.add_assoc, Nat.add_right_comm]
      exact hstep

/-- The receiver reads the bytes that the digits spell. -/
theorem convert_spells (junk : Nat → Byte) {digits data tail : List Byte}
    (h : Spells digits data) (htail : tail = [] ∨ tail = [0x0A])
    (hlen : digits.length < 2 ^ 32) :
    convertHexStringToData junk (digits ++ tail) = .ok (data, data.length) := by
  have hdigits := h.length
  have hhalf : (digits ++ tail).length / 2 = data.length := by
    rw [List.length_append, hdigits]
    rcases htail with rfl | rfl
    · rw [List.length_nil]
      omega
    · rw [List.length_singleton]
      omega
  have hfresh : ((List.range data.length).map junk).length = data.length := by
    rw [List.length_map, List.length_range]
  have hloop := hexLoop_spells h htail [] _ hfresh (by rw [List.length_nil]; omega)
  rw [List.nil_append, List.nil_append, List.length_nil, Nat.zero_add, Nat.mul_zero] at hloop
  rw [convertHexStringToData, hhalf, hloop]
  change Except.ok (data, if 2 * data.length % 2 = 0 then 2 * data.length / 2 else _) = _
  rw [if_pos (by omega), Nat.mul_div_cancel_left _ (by decide)]

theorem convert_hexText (junk : Nat → Byte) {data : List Byte} (hlen : data.length ≤ 255) :
    convertHexStringToData junk (hexText data ++ [0x0A]) = .ok (data, data.length) :=
  have hspells := spells_hexText data
  convert_spells junk hspells (.inr rfl) (by rw [hspells.length]; omega)

/-! ## A round -/

theorem fgets_flag (last : Bool) (rest : List Byte) :
    fgets 768 (flagText last ++ 0x0A :: rest) = .ok (flagText last ++ [0x0A], rest) := by
  refine fgets_line ?_ rest ?_
  · unfold Plain
    cases last <;> decide
  · cases last <;> decide

theorem lsfFlag_flagText (last : Bool) : lsfFlag (flagText last ++ [0x0A]) = .ok last := by
  cases last <;> rfl

/-- The receiver's step at one sequence. -/
def deliverPdu (junk : Nat → Byte) (q : DataSequence) (x : Pdu) :
    Except Stop (DataSequence × Option (List Byte)) :=
  deliver junk q (BitVec.ofNat 16 x.offset) x.data (BitVec.ofNat 8 x.data.length) x.last

/-- **A round delivers a segment.** -/
theorem receive_text {junk : Receiver → Nat → Byte} {r : Receiver} {x : Pdu} (hx : x.Valid)
    {rest : List Byte} (hinput : r.input = text x ++ rest) {q : DataSequence}
    {assembled : Option (List Byte)}
    (hstep : deliverPdu (junk r) (r.sequences x.seq) x = .ok (q, assembled)) :
    receive junk r = .ok ⟨Function.update r.sequences x.seq q, rest,
      r.output ++ assembled.toList.map fun buffer => (x.seq, buffer)⟩ := by
  have hhex : (hexText x.data).length + 1 < 768 := by
    have := hx.short
    rw [(spells_hexText x.data).length]
    omega
  have hpos := hx.pos
  rw [text, List.append_assoc, List.cons_append, List.append_assoc, List.cons_append,
    List.append_assoc, List.cons_append, List.append_assoc, List.cons_append, List.nil_append]
    at hinput
  unfold receive
  rw [hinput, readNumber_decimal hx.seq (by decide)]
  change (readNumber 65535 _ >>= _) = _
  rw [readNumber_decimal hx.offset (Nat.le_refl _)]
  change (fgets 768 _ >>= _) = _
  rw [fgets_line (plain_hexText _) _ hhex]
  change (convertHexStringToData (junk r) (cString (hexText x.data ++ [0x0A])) >>= _) = _
  rw [cString_line (plain_hexText _), convert_hexText _ hx.short]
  change (if x.data.length = 0 then _ else if x.data.length > 255 then _ else _) = _
  rw [if_neg (by omega), if_neg (Nat.not_lt_of_le hx.short), fgets_flag]
  change (lsfFlag (flagText x.last ++ [0x0A]) >>= _) = _
  rw [lsfFlag_flagText]
  change (deliverPdu (junk r) (r.sequences x.seq) x >>= _) = _
  rw [hstep]
  rfl

end Quals2017.Babyint
