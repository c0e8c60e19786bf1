import Quals2017.Liberty.Decompress

/-!
# The layers undo the phases

Each layer reads what a phase has written, wherever it stands in the buffer.

* `unpairs`: Layer 3 undoes a round of `Phase3`.
* `expandLoop_eq`, `expandLoop_unused`: Layer 2 undoes the replacements of one entry (`Replaced`),
  or does nothing where there were none. `Marked` says what follows a key.
* `layer1Loop_eq`: Layer 1 undoes `Phase1`.
-/

namespace Quals2017.Liberty

open Quals2017.Lib.Stretch

variable {inBuf : Nat → Byte} {dataLen pos n m : Nat} {key special lo hi : Byte}

/-! ## Layer 3 -/

theorem replacePairs_key (rest : List Byte) : replacePairs key special lo hi (key :: rest) =
    key :: special :: replacePairs key special lo hi rest := by
  rw [replacePairs.eq_def]
  exact if_pos rfl

theorem replacePairs_pair {a b c : Byte} {rest : List Byte} (ha : a ≠ key)
    (h : a = lo ∧ b = hi ∧ c ≠ special) : replacePairs key special lo hi (a :: b :: c :: rest) =
      key :: replacePairs key special lo hi (c :: rest) := by
  rw [replacePairs.eq_def]
  simp only [if_neg ha, if_pos h]

theorem replacePairs_other {a : Byte} {rest : List Byte} (ha : a ≠ key)
    (h : ∀ b c rest', rest = b :: c :: rest' → ¬(a = lo ∧ b = hi ∧ c ≠ special)) :
    replacePairs key special lo hi (a :: rest) = a :: replacePairs key special lo hi rest := by
  rw [replacePairs.eq_def]
  simp only [if_neg ha]
  split
  · exact if_neg (h _ _ _ rfl)
  · rfl

/-- What a round of `Phase3` writes for a byte that is not the special key does not begin with
it. -/
theorem replacePairs_head {c : Byte} (lo hi : Byte) (rest : List Byte) (hkey : key ≠ special)
    (hc : c ≠ special) : ∃ x xs, replacePairs key special lo hi (c :: rest) = x :: xs ∧ x ≠ special := by
  rw [replacePairs.eq_def]
  simp only
  split_ifs
  · exact ⟨key, _, rfl, hkey⟩
  · split
    · split_ifs
      · exact ⟨key, _, rfl, hkey⟩
      · exact ⟨c, _, rfl, hc⟩
    · exact ⟨c, _, rfl, hc⟩

/-- What Layer 3 undoes at `pos`. -/
def Unpairs (inBuf : Nat → Byte) (dataLen : Nat) (key special lo hi : Byte) (data : List Byte) :
    Prop :=
  ∀ pos n : Nat, Reads inBuf pos (replacePairs key special lo hi data) →
    pos + (replacePairs key special lo hi data).length = dataLen →
    (replacePairs key special lo hi data).length ≤ n →
    unpairLoop inBuf dataLen key special lo hi n pos = data

/-- A byte that is not replaced. -/
theorem unpairs_other {a : Byte} {rest : List Byte} (ha : a ≠ key)
    (heq : replacePairs key special lo hi (a :: rest) = a :: replacePairs key special lo hi rest)
    (ih : Unpairs inBuf dataLen key special lo hi rest) :
    Unpairs inBuf dataLen key special lo hi (a :: rest) := by
  intro pos n hr hlen hn
  rw [heq] at hr hlen hn
  obtain ⟨h₀, hr⟩ := reads_cons.mp hr
  simp only [List.length_cons] at hlen hn
  obtain ⟨n, rfl⟩ := Nat.exists_eq_succ_of_ne_zero (n := n) (by omega)
  rw [unpairLoop, if_pos (by omega), if_neg (h₀ ▸ ha), h₀, ih _ _ hr (by omega) (by omega)]

/-- **Layer 3 undoes the replacement of a pair.** -/
theorem unpairs (hkey : key ≠ special) (data : List Byte) :
    Unpairs inBuf dataLen key special lo hi data := by
  induction data using replacePairs.induct key special lo hi with
  | case1 =>
    intro pos n _ hlen _
    rw [replacePairs, List.length_nil] at hlen
    cases n with
    | zero => rfl
    | succ n => rw [unpairLoop, if_neg (by omega)]
  | case2 rest ih =>
    intro pos n hr hlen hn
    rw [replacePairs_key] at hr hlen hn
    obtain ⟨h₀, hr⟩ := reads_cons.mp hr
    obtain ⟨h₁, hr⟩ := reads_cons.mp hr
    simp only [List.length_cons] at hlen hn
    obtain ⟨n, rfl⟩ := Nat.exists_eq_succ_of_ne_zero (n := n) (by omega)
    rw [unpairLoop, if_pos (by omega), if_pos h₀, if_pos h₁, h₀, ih _ _ hr (by omega) (by omega)]
  | case3 a ha b c rest hpair ih =>
    intro pos n hr hlen hn
    rw [replacePairs_pair ha hpair] at hr hlen hn
    obtain ⟨x, xs, hx, hxs⟩ := replacePairs_head lo hi rest hkey hpair.2.2
    obtain ⟨h₀, hr⟩ := reads_cons.mp hr
    have hnext : inBuf (pos + 1) ≠ special := by
      rw [hx] at hr
      rwa [(reads_cons.mp hr).1]
    simp only [List.length_cons] at hlen hn
    obtain ⟨n, rfl⟩ := Nat.exists_eq_succ_of_ne_zero (n := n) (by omega)
    rw [unpairLoop, if_pos (by omega), if_pos h₀, if_neg hnext, ih _ _ hr (by omega) (by omega),
      hpair.1, hpair.2.1]
  | case4 a ha b c rest hpair ih =>
    refine unpairs_other ha (replacePairs_other ha fun b' c' rest' h => ?_) ih
    simp only [List.cons.injEq] at h
    rw [← h.1, ← h.2.1]
    exact hpair
  | case5 a ha rest hshort ih =>
    exact unpairs_other ha (replacePairs_other ha fun b c rest' h => absurd h (hshort b c rest')) ih

/-! ## Layer 2 -/

/-- `post` is `pre` with some occurrences of `find` replaced by `mark`. -/
inductive Replaced (find mark : List Byte) : List Byte → List Byte → Prop
  | nil : Replaced find mark [] []
  | copy {pre post : List Byte} (a : Byte) (h : Replaced find mark pre post) :
      Replaced find mark (a :: pre) (a :: post)
  | mark {pre post : List Byte} (h : Replaced find mark pre post) :
      Replaced find mark (find ++ pre) (mark ++ post)

namespace Replaced

variable {find mark pre post pre' post' : List Byte}

theorem refl (l : List Byte) : Replaced find mark l l := by
  induction l with
  | nil => exact nil
  | cons a l ih => exact copy a ih

theorem append (l : List Byte) (h : Replaced find mark pre post) :
    Replaced find mark (l ++ pre) (l ++ post) := by
  induction l with
  | nil => exact h
  | cons a l ih => exact copy a ih

theorem length_le (h : Replaced find mark pre post) (hlen : mark.length ≤ find.length) :
    post.length ≤ pre.length := by
  induction h with
  | nil => exact Nat.le_refl _
  | copy a _ ih => exact Nat.succ_le_succ ih
  | mark _ ih =>
    rw [List.length_append, List.length_append]
    exact Nat.add_le_add hlen ih

/-- A byte stays, in the data or in what was replaced. -/
theorem mem (h : Replaced find mark pre post) {a : Byte} (ha : a ∈ pre) : a ∈ find ∨ a ∈ post := by
  induction h with
  | nil => exact absurd ha List.not_mem_nil
  | copy b _ ih =>
    rcases List.mem_cons.mp ha with rfl | ha
    · exact Or.inr List.mem_cons_self
    · exact (ih ha).imp id (List.mem_cons_of_mem b)
  | mark _ ih =>
    rcases List.mem_append.mp ha with ha | ha
    · exact Or.inl ha
    · exact (ih ha).imp id (List.mem_append_right _)

end Replaced

/-- A key is followed by the number of one of `m` entries, or by another key. -/
def Marked (key : Byte) (m : Nat) : List Byte → Prop
  | [] => True
  | a :: l => (a = key → ∃ b, l.head? = some b ∧ (b.toNat < m ∨ b = key)) ∧ Marked key m l

namespace Marked

variable {l l' : List Byte}

theorem mono {m' : Nat} (h : Marked key m l) (hle : m ≤ m') : Marked key m' l := by
  induction l with
  | nil => trivial
  | cons a l ih =>
    refine ⟨fun ha => ?_, ih h.2⟩
    obtain ⟨b, hb, hlt⟩ := h.1 ha
    exact ⟨b, hb, hlt.imp (Nat.lt_of_lt_of_le · hle) id⟩

end Marked

/-- The mark of an entry. -/
def markOf (key : Byte) (m : Nat) : List Byte := [key, BitVec.ofNat 8 m]

theorem toNat_mark (hm : m < 256) : (BitVec.ofNat 8 m).toNat = m := by
  rw [BitVec.toNat_ofNat, Nat.mod_eq_of_lt hm]

variable {find pre post : List Byte}

/-- What begins the data begins it after the replacement, or a mark does. -/
theorem Replaced.head (h : Replaced find (markOf key m) pre post) {b : Byte}
    (hb : pre.head? = some b) : ∃ b', post.head? = some b' ∧ (b' = b ∨ b' = key) := by
  cases h with
  | nil => exact nomatch hb
  | copy a _ => exact ⟨a, rfl, Or.inl (Option.some.inj hb)⟩
  | mark _ => exact ⟨key, rfl, Or.inr rfl⟩

variable {data : Nat → Byte} {len : Nat}

/-- The run that the inner loop of `Phase1` finds. -/
theorem countRun_spec {i : Nat} : ∀ (n : Nat) {count : Nat}, i + count ≤ len →
    (∀ j, j < count → data (i + j) = data i) →
      count ≤ countRun data len i n count ∧ countRun data len i n count ≤ count + n ∧
        i + countRun data len i n count ≤ len ∧
        ∀ j, j < countRun data len i n count → data (i + j) = data i := by
  intro n
  induction n with
  | zero => exact fun hle hsame => ⟨Nat.le_refl _, Nat.le_refl _, hle, hsame⟩
  | succ n ih =>
    intro count hle hsame
    rw [countRun]
    split_ifs with h
    · have hsame' : ∀ j, j < count + 1 → data (i + j) = data i := fun j hj => by
        rcases Nat.lt_succ_iff_lt_or_eq.mp hj with hj | rfl
        · exact hsame j hj
        · exact h.2.symm
      obtain ⟨h₁, h₂, h₃, h₄⟩ := ih h.1 hsame'
      exact ⟨by omega, by omega, h₃, h₄⟩
    · exact ⟨Nat.le_refl _, Nat.le_add_right _ _, hle, hsame⟩

/-- A run as a list. -/
theorem stretch_run {i r : Nat} (hle : i + r ≤ len) (hsame : ∀ j, j < r → data (i + j) = data i) :
    stretch data i (len - i) =
      List.replicate r (data i) ++ stretch data (i + r) (len - (i + r)) := by
  rw [show len - i = r + (len - (i + r)) by omega, stretch_add]
  congr 1
  refine List.ext_getElem (by rw [stretch_length, List.length_replicate]) fun j hj _ => ?_
  rw [stretch_getElem, List.getElem_replicate]
  rw [stretch_length] at hj
  exact hsame j hj

/-- The four values that begin a run. -/
theorem runAt_same {i : Nat} (hat : runAt data len i) : ∀ j, j < 4 → data (i + j) = data i := by
  intro j hj
  obtain ⟨-, h₁, h₂, h₃⟩ := hat
  have hcases : j = 0 ∨ j = 1 ∨ j = 2 ∨ j = 3 := by omega
  rcases hcases with rfl | rfl | rfl | rfl
  · rfl
  · exact h₁.symm
  · exact h₂.symm
  · exact h₃.symm

/-- **Layer 1 undoes `Phase1`**, where no run is found behind the end of the data. -/
theorem layer1Loop_eq (hrun : ∀ i, i < len → runAt data len i → i + 4 ≤ len) : ∀ {k i pos n : Nat},
    Reads inBuf pos (phase1Loop data len key k i) →
      pos + (phase1Loop data len key k i).length = dataLen →
      (phase1Loop data len key k i).length ≤ n → len - i ≤ k →
        layer1Loop inBuf dataLen key n pos = stretch data i (len - i) := by
  have hdone : ∀ {i pos n : Nat}, len ≤ i → pos = dataLen →
      layer1Loop inBuf dataLen key n pos = stretch data i (len - i) := by
    intro i pos n hi hpos
    rw [Nat.sub_eq_zero_of_le hi]
    cases n with
    | zero => rfl
    | succ n => rw [layer1Loop, if_neg (by omega), stretch]
  intro k
  induction k with
  | zero =>
    intro i pos n _ hlen _ hk
    rw [phase1Loop, List.length_nil] at hlen
    exact hdone (by omega) (by omega)
  | succ k ih =>
    intro i pos n hr hlen hn hk
    rw [phase1Loop] at hr hlen hn
    by_cases hi : i < len
    · rw [if_pos hi] at hr hlen hn
      by_cases hat : runAt data len i
      · rw [if_pos hat] at hr hlen hn
        obtain ⟨hcount, hmax, hle, hsame⟩ := countRun_spec 254 (hrun i hi hat) (runAt_same hat)
        simp only at hr hlen hn
        generalize countRun data len i 254 4 = r at *
        obtain ⟨h₀, hr⟩ := reads_cons.mp hr
        obtain ⟨h₁, hr⟩ := reads_cons.mp hr
        obtain ⟨h₂, hr⟩ := reads_cons.mp hr
        simp only [List.length_cons] at hlen hn
        obtain ⟨n, rfl⟩ := Nat.exists_eq_succ_of_ne_zero (n := n) (by omega)
        have hnum : (BitVec.ofNat 8 (r - 3)).toNat = r - 3 := by
          rw [BitVec.toNat_ofNat, Nat.mod_eq_of_lt (by omega)]
        rw [layer1Loop, if_pos (by omega), if_pos h₀]
        simp only
        rw [h₁, hnum, if_neg (by omega), Nat.sub_add_cancel (by omega), h₂,
          ih hr (by omega) (by omega) (by omega), ← stretch_run hle hsame]
      · rw [if_neg hat] at hr hlen hn
        have hone : stretch data i (len - i) = data i :: stretch data (i + 1) (len - (i + 1)) := by
          rw [show len - i = len - (i + 1) + 1 by omega, stretch]
        by_cases hkey : data i = key
        · rw [if_pos hkey] at hr hlen hn
          obtain ⟨h₀, hr⟩ := reads_cons.mp hr
          obtain ⟨h₁, hr⟩ := reads_cons.mp hr
          simp only [List.length_cons] at hlen hn
          obtain ⟨n, rfl⟩ := Nat.exists_eq_succ_of_ne_zero (n := n) (by omega)
          have hzero : (inBuf (pos + 1)).toNat = 0 := by rw [h₁]; rfl
          rw [layer1Loop, if_pos (by omega), if_pos h₀]
          simp only
          rw [if_pos hzero, ih hr (by omega) (by omega) (by omega), h₀, hone, hkey]
        · rw [if_neg hkey] at hr hlen hn
          obtain ⟨h₀, hr⟩ := reads_cons.mp hr
          simp only [List.length_cons] at hlen hn
          obtain ⟨n, rfl⟩ := Nat.exists_eq_succ_of_ne_zero (n := n) (by omega)
          rw [layer1Loop, if_pos (by omega), if_neg (h₀ ▸ hkey),
            ih hr (by omega) (by omega) (by omega), h₀, hone]
    · rw [if_neg hi, List.length_nil] at hlen
      exact hdone (by omega) (by omega)

end Quals2017.Liberty
