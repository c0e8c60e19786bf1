import Mathlib.Data.List.TakeWhile
import Quals2017.Babyint.Text

/-!
# The buffer of `ConvertHexStringToData` (`babyint/server/main.cpp:243-276`)

The buffer has half the length of the string, rounded down. A character before the newline is
written at half its position, where `pos` is a `uint32_t`.

* `hexLoop_undefined_iff`: the loop leaves the buffer when one of the positions does.
* `inside_buffer_iff`: it stays in the buffer, except on a string of odd length without a newline.
* **`converts_iff`**: with that, and below `2 ^ 32` digits, the bytes are the ones spelled.
-/

namespace Quals2017.Babyint

/-- A hex digit, in lower or upper case. -/
def IsHexDigit (c : Byte) : Prop :=
  (0x30 ≤ c ∧ c ≤ 0x39) ∨ (0x61 ≤ c ∧ c ≤ 0x66) ∨ (0x41 ≤ c ∧ c ≤ 0x46)

instance (c : Byte) : Decidable (IsHexDigit c) := inferInstanceAs (Decidable (_ ∨ _ ∨ _))

/-- A hex string of even length, followed by an optional newline. -/
structure HexLine (str digits : List Byte) : Prop where
  hex : ∀ c ∈ digits, IsHexDigit c
  even : Even digits.length
  line : str = digits ∨ str = digits ++ [0x0A]

/-- The conversion writes only inside of the buffer, and it returns the bytes that a hex string
spells. -/
structure Converts (junk : Nat → Byte) (str : List Byte) : Prop where
  inside : convertHexStringToData junk str ≠ .error .undefined
  decodes : ∀ digits, HexLine str digits → ∃ data, Spells digits data ∧
    convertHexStringToData junk str = .ok (data, digits.length / 2)

/-! ## What a hex string spells -/

theorem exists_hexDigit (c : Byte) : IsHexDigit c → ∃ n, HexDigit c n := by
  unfold HexDigit
  revert c
  decide +kernel

/-- Every hex string of even length spells some bytes. -/
theorem exists_spells : ∀ digits : List Byte, (∀ c ∈ digits, IsHexDigit c) →
    Even digits.length → ∃ data, Spells digits data
  | [], _, _ => ⟨[], .nil⟩
  | [_], _, heven => absurd heven Nat.not_even_one
  | a :: b :: digits, hhex, heven => by
    rw [List.forall_mem_cons, List.forall_mem_cons] at hhex
    rw [List.length_cons, List.length_cons, Nat.even_add_one, Nat.even_add_one, not_not] at heven
    obtain ⟨data, hdata⟩ := exists_spells digits hhex.2.2 heven
    obtain ⟨high, hhigh⟩ := exists_hexDigit a hhex.1
    obtain ⟨low, hlow⟩ := exists_hexDigit b hhex.2.1
    exact ⟨_, .cons hhigh hlow hdata⟩

/-! ## The positions written -/

/-- The characters before the newline. -/
def beforeNewline (str : List Byte) : List Byte := str.takeWhile (· ≠ 0x0A)

theorem beforeNewline_newline (str : List Byte) : beforeNewline (0x0A :: str) = [] := rfl

theorem beforeNewline_cons {c : Byte} (hc : c ≠ 0x0A) (str : List Byte) :
    beforeNewline (c :: str) = c :: beforeNewline str :=
  List.takeWhile_cons_of_pos (decide_eq_true hc)

theorem beforeNewline_eq {str : List Byte} (h : 0x0A ∉ str) : beforeNewline str = str :=
  List.takeWhile_eq_self_iff.mpr fun _ hc => decide_eq_true fun heq => h (heq ▸ hc)

theorem beforeNewline_lt {str : List Byte} (h : 0x0A ∈ str) :
    (beforeNewline str).length < str.length := by
  induction str with
  | nil => exact absurd h List.not_mem_nil
  | cons c str ih =>
    by_cases hc : c = 0x0A
    · rw [hc, beforeNewline_newline]
      exact Nat.zero_lt_succ _
    · rw [beforeNewline_cons hc]
      exact Nat.succ_lt_succ (ih ((List.mem_cons.mp h).resolve_left (Ne.symm hc)))

/-- The loop leaves the buffer exactly when the position of some character does. -/
theorem hexLoop_undefined_iff : ∀ (str pTemp : List Byte) {pos : Nat}, pos < 2 ^ 32 →
    (hexLoop str pTemp pos = .error .undefined ↔
      ∃ i < (beforeNewline str).length, pTemp.length ≤ (pos + i) % 2 ^ 32 / 2)
  | [], pTemp, pos, _ => by
    constructor
    · intro h
      cases h
    · rintro ⟨i, hi, -⟩
      exact absurd hi (Nat.not_lt_zero i)
  | c :: str, pTemp, pos, hpos => by
    rw [hexLoop]
    by_cases hc : c = 0x0A
    · rw [if_pos hc, hc, beforeNewline_newline]
      constructor
      · intro h
        cases h
      · rintro ⟨i, hi, -⟩
        exact absurd hi (Nat.not_lt_zero i)
    · rw [if_neg hc, beforeNewline_cons hc, List.length_cons]
      by_cases hroom : pos / 2 < pTemp.length
      · have ih := hexLoop_undefined_iff str (pTemp.set (pos / 2)
          (if pos % 2 = 0 then asciiToHex c
            else pTemp.getD (pos / 2) 0 <<< 4 ||| asciiToHex c))
          (Nat.mod_lt (pos + 1) (show 0 < 2 ^ 32 by decide))
        rw [if_pos hroom, ih, List.length_set]
        constructor
        · rintro ⟨i, hi, hout⟩
          refine ⟨i + 1, Nat.succ_lt_succ hi, ?_⟩
          rw [Nat.mod_add_mod, Nat.add_right_comm] at hout
          exact hout
        · rintro ⟨i, hi, hout⟩
          cases i with
          | zero =>
            rw [Nat.add_zero, Nat.mod_eq_of_lt hpos] at hout
            exact absurd hroom (Nat.not_lt_of_le hout)
          | succ i =>
            refine ⟨i, Nat.lt_of_succ_lt_succ hi, ?_⟩
            rw [Nat.mod_add_mod, Nat.add_right_comm]
            exact hout
      · rw [if_neg hroom]
        refine ⟨fun _ => ⟨0, Nat.zero_lt_succ _, ?_⟩, fun _ => rfl⟩
        rw [Nat.add_zero, Nat.mod_eq_of_lt hpos]
        exact Nat.le_of_not_lt hroom

/-- Where the loop stands at its end. -/
theorem hexLoop_pos : ∀ (str pTemp : List Byte) {pos : Nat} {r : List Byte × Nat}, pos < 2 ^ 32 →
    hexLoop str pTemp pos = .ok r → r.2 = (pos + (beforeNewline str).length) % 2 ^ 32
  | [], pTemp, pos, r, hpos, h => by
    cases h
    exact (Nat.mod_eq_of_lt hpos).symm
  | c :: str, pTemp, pos, r, hpos, h => by
    rw [hexLoop] at h
    by_cases hc : c = 0x0A
    · rw [if_pos hc] at h
      cases h
      rw [hc, beforeNewline_newline]
      exact (Nat.mod_eq_of_lt hpos).symm
    · by_cases hroom : pos / 2 < pTemp.length
      · rw [if_neg hc, if_pos hroom] at h
        have ih := hexLoop_pos str _ (Nat.mod_lt (pos + 1) (show 0 < 2 ^ 32 by decide)) h
        rw [ih, beforeNewline_cons hc, List.length_cons, Nat.mod_add_mod, Nat.add_right_comm,
          Nat.add_assoc]
      · rw [if_neg hc, if_neg hroom] at h
        cases h

/-! ## The conversion -/

section Convert

variable (junk : Nat → Byte) (str : List Byte)

theorem convert_undefined_iff : convertHexStringToData junk str = .error .undefined ↔
    ∃ i < (beforeNewline str).length, str.length / 2 ≤ i % 2 ^ 32 / 2 := by
  have hloop := hexLoop_undefined_iff str ((List.range (str.length / 2)).map junk)
    (show 0 < 2 ^ 32 by decide)
  simp only [List.length_map, List.length_range, Nat.zero_add] at hloop
  rw [← hloop, convertHexStringToData]
  cases hexLoop str ((List.range (str.length / 2)).map junk) 0 with
  | error stop =>
    constructor
    · intro h
      cases h
      rfl
    · intro h
      cases h
      rfl
  | ok r =>
    constructor
    · intro h
      cases h
    · intro h
      cases h

/-- **The buffer**: a string of odd length without a newline leaves it, unless `pos` has come round
to the start. -/
theorem inside_buffer_iff : convertHexStringToData junk str ≠ .error .undefined ↔
    0x0A ∈ str ∨ Even str.length ∨ 2 ^ 32 ≤ str.length := by
  rw [Ne, convert_undefined_iff, not_exists]
  by_cases hnewline : 0x0A ∈ str
  · have hlt := beforeNewline_lt hnewline
    refine ⟨fun _ => .inl hnewline, fun _ i hi => ?_⟩
    have hmod := Nat.mod_le i (2 ^ 32)
    omega
  · rw [beforeNewline_eq hnewline, Nat.even_iff]
    constructor
    · intro h
      by_contra hodd
      refine h (str.length - 1) ⟨by omega, ?_⟩
      rw [Nat.mod_eq_of_lt (by omega)]
      omega
    · rintro (h | heven | hlong) i ⟨hi, hout⟩
      · exact hnewline h
      · have hmod := Nat.mod_le i (2 ^ 32)
        omega
      · have hmod := Nat.mod_lt i (show 0 < 2 ^ 32 by decide)
        omega

variable {junk str}

/-- The length returned is half of the digits, which are counted modulo `2 ^ 32`. -/
theorem convert_dataLen {r : List Byte × Nat} (h : convertHexStringToData junk str = .ok r) :
    r.2 = ((beforeNewline str).length % 2 ^ 32 + 1) / 2 := by
  rw [convertHexStringToData] at h
  cases hr : hexLoop str ((List.range (str.length / 2)).map junk) 0 with
  | error stop =>
    rw [hr] at h
    cases h
  | ok r =>
    have hpos := hexLoop_pos str _ (show 0 < 2 ^ 32 by decide) hr
    rw [Nat.zero_add] at hpos
    rw [hr] at h
    cases h
    show (if r.2 % 2 = 0 then r.2 / 2 else r.2 / 2 + 1) = _
    rw [← hpos]
    split_ifs <;> omega

end Convert

theorem HexLine.beforeNewline {str digits : List Byte} (h : HexLine str digits) :
    Babyint.beforeNewline str = digits := by
  have hdigits : (0x0A : Byte) ∉ digits := fun hmem => absurd (h.hex _ hmem) (by decide)
  rcases h.line with rfl | rfl
  · exact beforeNewline_eq hdigits
  · have hall : ∀ c ∈ digits, decide (c ≠ 0x0A) = true :=
      fun c hc => decide_eq_true fun heq => hdigits (heq ▸ hc)
    exact (List.takeWhile_append_of_pos hall).trans (List.append_nil digits)

theorem HexLine.tail {str digits : List Byte} (h : HexLine str digits) :
    ∃ tail, str = digits ++ tail ∧ (tail = [] ∨ tail = [0x0A]) := by
  rcases h.line with hline | hline
  · exact ⟨[], hline.trans (List.append_nil digits).symm, .inl rfl⟩
  · exact ⟨[0x0A], hline, .inr rfl⟩

/-- **When the conversion does what it is for**: the string has a newline, an even length, or comes
round; and a hex string has less than `2 ^ 32` digits. -/
theorem converts_iff (junk : Nat → Byte) (str : List Byte) : Converts junk str ↔
    (0x0A ∈ str ∨ Even str.length ∨ 2 ^ 32 ≤ str.length) ∧
      ∀ digits, HexLine str digits → digits.length < 2 ^ 32 := by
  constructor
  · intro h
    refine ⟨(inside_buffer_iff junk str).mp h.inside, fun digits hline => ?_⟩
    obtain ⟨data, -, hok⟩ := h.decodes digits hline
    have hlen := convert_dataLen hok
    have heven := Nat.even_iff.mp hline.even
    have hmod := Nat.mod_lt digits.length (show 0 < 2 ^ 32 by decide)
    rw [hline.beforeNewline] at hlen
    have hhalf : digits.length / 2 = (digits.length % 2 ^ 32 + 1) / 2 := hlen
    omega
  · rintro ⟨hstr, hdigits⟩
    refine ⟨(inside_buffer_iff junk str).mpr hstr, fun digits hline => ?_⟩
    obtain ⟨data, hdata⟩ := exists_spells digits hline.hex hline.even
    obtain ⟨tail, rfl, htail⟩ := hline.tail
    refine ⟨data, hdata, ?_⟩
    rw [convert_spells junk hdata htail (hdigits digits hline), hdata.length,
      Nat.mul_div_cancel_left _ (by decide)]

/-- One digit without a newline: the buffer is empty, and the digit goes behind it. -/
theorem convert_odd : ¬ ∀ (junk : Nat → Byte) (str : List Byte), Converts junk str := by
  intro h
  exact (h (fun _ => 0) [0x61]).inside rfl

end Quals2017.Babyint
