import Quals2017.Jargon.Disassembler
import Quals2017.Lib.Turns

/-!
# Where the disassembly does not end (`jargon/jargon.c:311-427`)

The decoders of the two instructions with an operand hand back an `unsigned char`. An instruction
that begins inside the listing and ends at position 256 or beyond is followed by position 0, 1 or
2, and `Disassemble` goes on from there.

* `Boundary`: the positions at which an instruction begins, counting whole instructions.
* `Wraps`: the instruction whose end is behind position 255, and the position it goes back to.
* **`disassembly_ends_iff`**: the loop ends exactly when going back from position to position comes
  to one from which no instruction with an operand runs over the end.
* `short_listing_ends`: no listing of at most 126 bytes goes back.
-/

namespace Quals2017.Jargon

open Quals2017.Lib

/-! ## The size of an instruction -/

/-- The opcode at a position. -/
def opcodeIn (code : Code) (i : Nat) (h : i < positions) : Fin 16 :=
  toOpcode (if i &&& 1 = 0 then byteAt code i h >>> 4 else byteAt code i h)

attribute [local instance] neZero_opcodes

/-- The positions of the operand behind an opcode. -/
def operandLen (op : Fin 16) : Nat := if op = 11 then 1 else if op = 15 then 2 else 0

/-- The positions of the instruction at `i`. -/
def size (code : Code) (i : Nat) (h : i < positions) : Nat := 1 + operandLen (opcodeIn code i h)

theorem size_pos (code : Code) (i : Nat) (h : i < positions) : 0 < size code i h :=
  Nat.lt_of_lt_of_le Nat.one_pos (Nat.le_add_right _ _)

theorem size_le (code : Code) (i : Nat) (h : i < positions) : size code i h ≤ 3 := by
  unfold size operandLen
  split_ifs <;> simp

/-- The instruction at `i` has an operand and ends behind position 255. -/
def Overruns (code : Code) (i : Nat) (h : i < positions) : Prop :=
  operandLen (opcodeIn code i h) ≠ 0 ∧ positions ≤ i + size code i h

instance (code : Code) (i : Nat) (h : i < positions) : Decidable (Overruns code i h) :=
  inferInstanceAs (Decidable (_ ∧ _))

/-- Counting whole instructions from `r`, one begins or ends at this position. -/
inductive Boundary (code : Code) (len : Nat) (r : Nat) : Nat → Prop where
  | start : Boundary code len r r
  | next {i : Nat} (h : Boundary code len r i) (hlen : i < len) (hi : i < positions) :
      Boundary code len r (i + size code i hi)

/-- Counting from `r`, an instruction of the listing has an operand that runs over the end of the
code, to position `t`. -/
def Wraps (code : Code) (len r t : Nat) : Prop :=
  ∃ i, ∃ hi : i < positions, Boundary code len r i ∧ i < len ∧ Overruns code i hi ∧
    i + size code i hi = positions + t

/-- It goes back to position 0, 1 or 2. -/
theorem Wraps.le_two {code : Code} {len r t : Nat} (h : Wraps code len r t) : t ≤ 2 := by
  obtain ⟨i, hi, -, -, -, hend⟩ := h
  have hsize := size_le code i hi
  omega

/-! ## The round of the disassembler -/

theorem pushDisas_next (code : Code) (i : Nat) :
    (pushDisas code (UInt8.ofNat i)).next = (i + 2) % positions := by
  unfold pushDisas positions
  simp [UInt8.toNat_add, Nat.add_assoc]

theorem cajDisas_next (code : Code) (i : Nat) :
    (cajDisas code (UInt8.ofNat i)).next = (i + 3) % positions := by
  unfold cajDisas positions
  simp [UInt8.toNat_add, Nat.add_assoc]

theorem disasRound_opcodeIn (code : Code) (i : Nat) (h : i < positions) :
    disasRound code i h = match disas (opcodeIn code i h) with
      | some d => d code (UInt8.ofNat i)
      | none => ⟨i, opcodeIn code i h, none, i + 1⟩ := rfl

/-- **A round goes on behind the instruction**, modulo 256 when it has an operand. -/
theorem disasRound_next_eq (code : Code) (i : Nat) (h : i < positions) :
    (disasRound code i h).next =
      if Overruns code i h then i + size code i h - positions else i + size code i h := by
  rw [disasRound_opcodeIn]
  unfold Overruns size operandLen disas
  by_cases hpush : opcodeIn code i h = 11
  · simp only [hpush, if_true, pushDisas_next]
    unfold positions at h ⊢
    split_ifs <;> omega
  · by_cases hjump : opcodeIn code i h = 15
    · simp only [hjump, if_true, if_neg (show (15 : Fin 16) ≠ 11 by decide), cajDisas_next]
      unfold positions at h ⊢
      split_ifs <;> omega
    · simp [hpush, hjump]

/-- `i` after a round of the loop that begins at `i`. -/
def goesOn (code : Code) (i : Nat) : Nat :=
  if h : i < positions then (disasRound code i h).next else i

/-- The loop of `Disassemble` as a loop without a listing. -/
theorem disassembleLoop_ends {code : Code} {len : Nat} (hlen : len ≤ positions) {i : Nat} :
    (∃ fuel lines, disassembleLoop code len hlen fuel i = some lines) ↔
      Ends (goesOn code) (len ≤ ·) i := by
  constructor
  · rintro ⟨fuel, lines, h⟩
    induction fuel generalizing i lines with
    | zero => exact absurd h (by simp [disassembleLoop])
    | succ fuel ih =>
      rw [disassembleLoop] at h
      split_ifs at h with hi
      · obtain ⟨rest, hrest, -⟩ := Option.bind_eq_some_iff.mp h
        refine .round (Nat.not_le.mpr hi) ?_
        rw [goesOn, dif_pos (Nat.lt_of_lt_of_le hi hlen)]
        exact ih _ hrest
      · exact .done (Nat.not_lt.mp hi)
  · intro h
    induction h with
    | @done i h =>
      exact ⟨1, [], by rw [disassembleLoop, dif_neg (Nat.not_lt.mpr h)]⟩
    | @round i h _ ih =>
      obtain ⟨fuel, lines, hl⟩ := ih
      have hi := Nat.not_le.mp h
      rw [goesOn, dif_pos (Nat.lt_of_lt_of_le hi hlen)] at hl
      refine ⟨fuel + 1, disasRound code i (Nat.lt_of_lt_of_le hi hlen) :: lines, ?_⟩
      rw [disassembleLoop, dif_pos hi]
      exact Option.bind_eq_some_iff.mpr ⟨lines, hl, rfl⟩

/-! ## Going back -/

/-- The rounds that go back. -/
def GoesBack (code : Code) (i : Nat) : Prop := ∃ h : i < positions, Overruns code i h

theorem goesOn_back {code : Code} {i : Nat} (h : i < positions) (ho : Overruns code i h) :
    i + size code i h = positions + goesOn code i := by
  rw [goesOn, dif_pos h, disasRound_next_eq, if_pos ho, Nat.add_sub_cancel' ho.2]

theorem goesOn_ahead {code : Code} {i : Nat} (h : i < positions) (hb : ¬ GoesBack code i) :
    goesOn code i = i + size code i h := by
  rw [goesOn, dif_pos h, disasRound_next_eq, if_neg fun ho => hb ⟨h, ho⟩]

/-- A boundary counted from the end of an instruction is one counted from its beginning. -/
theorem Boundary.head {code : Code} {len r i : Nat} (hlen : r < len) (hr : r < positions)
    (h : Boundary code len (r + size code r hr) i) : Boundary code len r i := by
  induction h with
  | start => exact .next .start hlen hr
  | next _ hl hi ih => exact .next ih hl hi

section Back

variable {code : Code} {len : Nat} (hlen : len ≤ positions)

/-- No instruction before a boundary inside the code goes back. -/
theorem Boundary.turns {r i t : Nat} (h : Boundary code len r i) (hi : i < positions)
    (ht : Turns (goesOn code) (len ≤ ·) (GoesBack code) i t) :
    Turns (goesOn code) (len ≤ ·) (GoesBack code) r t := by
  induction h with
  | start => exact ht
  | @next j _ hl hj ih =>
    have hb : ¬ GoesBack code j := fun ⟨_, ho⟩ => Nat.not_le.mpr hi ho.2
    refine ih hj (.ahead (Nat.not_le.mpr hl) hb ?_)
    rwa [goesOn_ahead hj hb]

include hlen

/-- The first turn of the loop is the instruction that runs over the end. -/
theorem turns_iff_wraps (r t : Nat) :
    Turns (goesOn code) (len ≤ ·) (GoesBack code) r t ↔ Wraps code len r t := by
  constructor
  · intro h
    induction h with
    | @turn i hs hb =>
      obtain ⟨hi, ho⟩ := hb
      exact ⟨i, hi, .start, Nat.not_le.mp hs, ho, goesOn_back hi ho⟩
    | @ahead i t hs hb _ ih =>
      have hi : i < positions := Nat.lt_of_lt_of_le (Nat.not_le.mp hs) hlen
      obtain ⟨j, hj, hbound, hjl, ho, hend⟩ := ih
      rw [goesOn_ahead hi hb] at hbound
      exact ⟨j, hj, hbound.head (Nat.not_le.mp hs) hi, hjl, ho, hend⟩
  · rintro ⟨i, hi, hbound, hil, ho, hend⟩
    have ht : goesOn code i = t := Nat.add_left_cancel ((goesOn_back hi ho).symm.trans hend)
    exact hbound.turns hi (ht ▸ .turn (Nat.not_le.mpr hil) ⟨hi, ho⟩)

/-- A round that does not go back comes closer to the end of the listing. -/
theorem goesOn_lt (i : Nat) (hs : ¬ len ≤ i) (hb : ¬ GoesBack code i) :
    len - goesOn code i < len - i := by
  have hi : i < positions := Nat.lt_of_lt_of_le (Nat.not_le.mp hs) hlen
  have hsize := size_pos code i hi
  rw [goesOn_ahead hi hb]
  omega

end Back

/-- The listing of an accepted length lies inside the code. -/
theorem listing_fits {length : Nat} (h : length ≤ 128) : length * 2 ≤ positions :=
  Nat.mul_le_mul_right 2 h

/-- **The disassembly ends exactly when it stops going back**: from a position it goes back to, no
instruction of the listing with an operand runs over the end of the code. -/
theorem disassembly_ends_iff (code : Code) (length : Nat) (h : length ≤ 128) :
    (∃ fuel lines, disassembleLoop code (length * 2) (listing_fits h) fuel 0 =
      some lines) ↔
    ∃ r, Relation.ReflTransGen (Wraps code (length * 2)) 0 r ∧
      ∀ t, ¬ Wraps code (length * 2) r t := by
  have hlen := listing_fits h
  have hwraps : Turns (goesOn code) (length * 2 ≤ ·) (GoesBack code) =
      Wraps code (length * 2) := by
    funext r t
    exact propext (turns_iff_wraps hlen r t)
  rw [disassembleLoop_ends, ends_iff (goesOn_lt hlen), hwraps]

/-- `dead beef` all over the code. -/
def allPush : Code := Vector.replicate 128 0xbb

/-- The listing of one instruction ends behind it. -/
theorem disassembly_ends_one :
    (∃ fuel lines, disassembleLoop allPush (1 * 2) (listing_fits (by decide)) fuel 0 = some lines) ↔
    ∃ r, Relation.ReflTransGen (Wraps allPush (1 * 2)) 0 r ∧ ∀ t, ¬ Wraps allPush (1 * 2) r t :=
  disassembly_ends_iff allPush 1 (by decide)

/-- A listing of at most 126 bytes ends. -/
theorem short_listing_ends (code : Code) {length : Nat} (h : length ≤ 126) :
    ∃ fuel lines, disassembleLoop code (length * 2) (listing_fits (h.trans (by decide))) fuel 0 =
      some lines := by
  have hlen := listing_fits (h.trans (by decide : 126 ≤ 128))
  rw [disassembleLoop_ends]
  refine ends_of_last (goesOn_lt hlen) fun t ht => ?_
  obtain ⟨i, hi, -, hil, ho, -⟩ := (turns_iff_wraps hlen 0 t).mp ht
  have hsize := size_le code i hi
  have hover := ho.2
  unfold positions at hover
  omega

theorem allPush_opcode (i : Nat) (h : i < positions) : opcodeIn allPush i h = 11 := by
  have hbyte : byteAt allPush i h = 0xbb := by simp [byteAt, allPush, Vector.get]
  rw [opcodeIn, hbyte]
  split_ifs <;> rfl

/-- Every instruction of `allPush` takes two positions: the walk stays at even ones. -/
theorem allPush_goesOn {i : Nat} (h : i < 256) (heven : i % 2 = 0) :
    goesOn allPush i < 256 ∧ goesOn allPush i % 2 = 0 := by
  have hi : i < positions := h
  have hsize : size allPush i hi = 2 := by rw [size, allPush_opcode]; rfl
  by_cases ho : Overruns allPush i hi
  · have hback := goesOn_back hi ho
    rw [hsize] at hback
    unfold positions at hback
    omega
  · have hahead := goesOn_ahead hi fun ⟨_, h⟩ => ho h
    have hend : ¬ positions ≤ i + size allPush i hi := fun hp =>
      ho ⟨by rw [allPush_opcode]; decide, hp⟩
    rw [hsize] at hahead hend
    unfold positions at hend
    omega

/-- 128 bytes of `dead beef` are listed over and over again. -/
theorem disassembly_not_ending : ¬ ∀ (code : Code) (length : Nat) (h : length ≤ 128), 0 < length →
    ∃ fuel lines, disassembleLoop code (length * 2) (listing_fits h) fuel 0 = some lines := by
  intro hall
  have hends := (disassembleLoop_ends _).mp (hall allPush 128 (Nat.le_refl _) (by decide))
  have hnever : ∀ i, Ends (goesOn allPush) (128 * 2 ≤ ·) i → ¬ (i < 256 ∧ i % 2 = 0) := by
    intro i h
    induction h with
    | done h => exact fun hi => absurd hi.1 (Nat.not_lt.mpr h)
    | round _ _ ih => exact fun hi => ih (allPush_goesOn hi.1 hi.2)
  exact hnever 0 hends ⟨by decide, rfl⟩

end Quals2017.Jargon
