import Quals2017.Godzilla.BigInt

/-!
# Sums, differences and products (`godzilla/server/bigint.cpp:78-202, 231-277`)

The operators that `BigInt` does not have yet: `+=`, and those whose operand is a `uint32_t`. Each
is `Exact`: it leaves the number it should leave, and throws exactly when that number is negative or
has more words than the left operand. `*=` of two numbers is the exception: `i + j` is a `uint32_t`
in `:172`, and where it wraps the product of two words is added at the wrong place.

* `addAssign_exact`, `subAssign_exact`, `compareNum_eq`, …: one for each operator.
* `mulAssign_exact_iff`: when `*=` is exact.
* **`arithmetic_exact_iff`**: when all of them are.
-/

namespace Quals2017.Godzilla.BigInt

open Quals2017.Lib Quals2017.Lib.Limbs

/-- An operator leaves `value`, in the words of its left operand, if that fits, and throws if it
does not. -/
structure Exact (length : Nat) (fits : Prop) (value : Nat) (x : Except Fault BigInt) : Prop where
  leaves : fits → ∃ r, x = .ok r ∧ r.length = length ∧ r.toNat = value
  throws : ¬ fits → ∃ reason, x = .error (.overflow reason)

/-! ## Two numbers -/

/-- What `operator+=(const BigInt &)` throws. -/
def addOverflow : Fault := .overflow "operator+= overflow in resulting operation"

/-- The loop of `operator+=`: the words of the sum, and the last carry. -/
def addLoop : List Word → List Word → Nat → List Word × Nat
  | [], _, carry => ([], carry)
  | v :: vs, ns, carry =>
    let sum := (v.toNat + (ns.headD 0).toNat + carry) % 2 ^ 64
    let r := addLoop vs ns.tail (sum >>> 32)
    (BitVec.ofNat 32 sum :: r.1, r.2)

theorem addLoop_length : ∀ vs ns carry, (addLoop vs ns carry).1.length = vs.length
  | [], _, _ => rfl
  | v :: vs, ns, carry => by
    rw [addLoop, List.length_cons, List.length_cons, addLoop_length]

/-- For the test of the words that are left over. -/
local instance lawfulBEqWord : LawfulBEq Word := inferInstance

/-- `operator+=(const BigInt &)`. -/
def addAssign (a n : BigInt) : Except Fault BigInt :=
  let r := addLoop a.value n.value 0
  if r.2 ≠ 0 then .error addOverflow
  else if ∃ x ∈ n.value.drop a.length, x ≠ 0 then .error addOverflow
  else .ok (a.put r.1 (addLoop_length _ _ _))

theorem addLoop_val : ∀ (vs ns : List Word) {carry : Nat}, carry ≤ 1 →
    val (addLoop vs ns carry).1 + 2 ^ (32 * vs.length) * (addLoop vs ns carry).2 =
      val vs + val (ns.take vs.length) + carry
  | [], ns, carry, _ => by
    rw [addLoop, List.length_nil, Nat.mul_zero, Nat.pow_zero, List.take_zero, val_nil]
    omega
  | v :: vs, ns, carry, hc => by
    have hv := v.isLt
    have hn := (ns.headD 0).isLt
    have hsum : v.toNat + (ns.headD 0).toNat + carry < 2 ^ 64 := by omega
    have ih := addLoop_val vs ns.tail
      (show (v.toNat + (ns.headD 0).toNat + carry) / 2 ^ 32 ≤ 1 by omega)
    rw [addLoop, Nat.mod_eq_of_lt hsum, Nat.shiftRight_eq_div_pow, List.length_cons, pow_words,
      val_take_cons, val_cons, val_cons, BitVec.toNat_ofNat, Nat.mul_assoc]
    generalize 2 ^ (32 * vs.length) *
      (addLoop vs ns.tail ((v.toNat + (ns.headD 0).toNat + carry) / 2 ^ 32)).2 = out at *
    omega

/-- The words above the left operand, as both operators look at them. -/
theorem drop_zero_iff {a n : BigInt} :
    (¬ ∃ x ∈ n.value.drop a.length, x ≠ 0) ↔ n.toNat < 2 ^ (32 * a.length) := by
  constructor
  · intro h
    have hzero : val (n.value.drop a.length) = 0 :=
      val_eq_zero.mpr fun x hx => by_contra fun hne => h ⟨x, hx, hne⟩
    have hlow := val_take_lt n.value a.length
    have hsplit := val_split n.value a.length
    rw [hzero, Nat.mul_zero, Nat.add_zero] at hsplit
    rw [toNat]
    omega
  · rintro h ⟨x, hx, hne⟩
    exact hne (val_eq_zero.mp (val_drop_eq_zero h) x hx)

theorem addAssign_exact (a n : BigInt) : Exact a.length
    (a.toNat + n.toNat < 2 ^ (32 * a.length)) (a.toNat + n.toNat) (a.addAssign n) := by
  have hval : val (addLoop a.value n.value 0).1 +
      2 ^ (32 * a.length) * (addLoop a.value n.value 0).2 =
        a.toNat + val (n.value.take a.length) + 0 := addLoop_val a.value n.value (Nat.zero_le 1)
  have hr : val (addLoop a.value n.value 0).1 < 2 ^ (32 * a.length) := by
    have := val_lt (addLoop a.value n.value 0).1
    rwa [addLoop_length] at this
  have htake : val (n.value.take a.length) ≤ n.toNat := by
    rw [toNat, val_split n.value a.length]
    exact Nat.le_add_right _ _
  unfold addAssign
  by_cases hout : (addLoop a.value n.value 0).2 = 0
  · rw [if_neg (not_not.mpr hout)]
    rw [hout, Nat.mul_zero] at hval
    by_cases hhigh : n.toNat < 2 ^ (32 * a.length)
    · rw [if_neg (drop_zero_iff.mpr hhigh)]
      have hsum : val (addLoop a.value n.value 0).1 = a.toNat + n.toNat := by
        rw [val_take_of_lt hhigh, ← toNat] at hval
        omega
      exact ⟨fun _ => ⟨_, rfl, length_put _ _ _, hsum⟩, fun h => absurd (hsum ▸ hr) h⟩
    · rw [if_pos (not_not.mp (mt drop_zero_iff.mp hhigh))]
      exact ⟨fun h => absurd (Nat.lt_of_le_of_lt (Nat.le_add_left _ _) h) hhigh,
        fun _ => ⟨_, rfl⟩⟩
  · have := Nat.le_mul_of_pos_right (2 ^ (32 * a.length)) (Nat.pos_of_ne_zero hout)
    rw [if_pos hout]
    exact ⟨fun h => by omega, fun _ => ⟨_, rfl⟩⟩

theorem subAssign_exact (a n : BigInt) :
    Exact a.length (n.toNat ≤ a.toNat) (a.toNat - n.toNat) (a.subAssign n) := by
  refine ⟨subAssign_ok, fun h => ?_⟩
  have hval : a.toNat + 2 ^ (32 * a.length) * (subLoop a.value n.value 0).2 =
      val (subLoop a.value n.value 0).1 + val (n.value.take a.length) + 0 :=
    subLoop_val a.value n.value (Nat.zero_le 1)
  unfold subAssign
  by_cases hout : (subLoop a.value n.value 0).2 = 0
  · rw [if_neg (not_not.mpr hout), if_pos]
    · exact ⟨_, rfl⟩
    · refine not_not.mp (mt drop_zero_iff.mp fun hhigh => h ?_)
      rw [hout, Nat.mul_zero, val_take_of_lt hhigh, ← toNat] at hval
      omega
  · rw [if_pos hout]
    exact ⟨_, rfl⟩

/-- `*=` is exact when no product of two words is put at a wrapped place, or when the sum that this
gives does not fit either. -/
theorem mulAssign_exact_iff (a n : BigInt) :
    Exact a.length (a.toNat * n.toNat < 2 ^ (32 * a.length)) (a.toNat * n.toNat) (a.mulAssign n) ↔
      NoWrap a n ∨ 2 ^ (32 * a.length) ≤ wrappedProduct a n := by
  constructor
  · intro h
    by_cases hfits : a.toNat * n.toNat < 2 ^ (32 * a.length)
    · exact .inl (noWrap_of_fits hfits)
    · refine .inr (Nat.le_of_not_lt fun hlt => ?_)
      obtain ⟨r, hr, -⟩ := mulAssign_fits hlt
      obtain ⟨reason, hthrow⟩ := h.throws hfits
      rw [hr] at hthrow
      cases hthrow
  · rintro (hwrap | hover)
    · exact ⟨mulAssign_ok, fun h => ⟨_, mulAssign_error hwrap (Nat.le_of_not_lt h)⟩⟩
    · refine ⟨mulAssign_ok, fun _ => ⟨_, mulAssign_throws hover⟩⟩

/-! ## A number and a `uint32_t` -/

/-- A loop over the words of `a` leaves new ones or throws. -/
structure Ends (length : Nat) (fits : Prop) (value : Nat) (x : Except Fault (List Word)) :
    Prop where
  leaves : fits → ∃ vs, x = .ok vs ∧ vs.length = length ∧ val vs = value
  throws : ¬ fits → ∃ reason, x = .error (.overflow reason)

theorem Ends.ok {length value : Nat} {fits : Prop} {vs : List Word} (hl : vs.length = length)
    (hf : fits) (hv : val vs = value) : Ends length fits value (.ok vs) :=
  ⟨fun _ => ⟨vs, rfl, hl, hv⟩, fun h => absurd hf h⟩

/-- A word below. -/
theorem Ends.cons {length value value' : Nat} {fits fits' : Prop} {x : Except Fault (List Word)}
    (v : Word) (hx : Ends length fits value x) (hf : fits' ↔ fits)
    (hv : fits → v.toNat + 2 ^ 32 * value = value') :
    Ends (length + 1) fits' value' (x.map (v :: ·)) where
  leaves h := by
    obtain ⟨vs, rfl, hl, hval⟩ := hx.leaves (hf.mp h)
    refine ⟨v :: vs, rfl, congrArg (· + 1) hl, ?_⟩
    rw [val_cons, hval, hv (hf.mp h)]
  throws h := by
    obtain ⟨reason, rfl⟩ := hx.throws (mt hf.mpr h)
    exact ⟨reason, rfl⟩

/-- The array of `a` after such a loop. -/
def store (a : BigInt) : (x : Except Fault (List Word)) →
    (∀ vs, x = .ok vs → vs.length = a.value.length) → Except Fault BigInt
  | .ok vs, hx => .ok (a.put vs (hx vs rfl))
  | .error e, _ => .error e

theorem Ends.store {a : BigInt} {value : Nat} {fits : Prop} {x : Except Fault (List Word)}
    (h : Ends a.length fits value x) (hx : ∀ vs, x = .ok vs → vs.length = a.value.length) :
    Exact a.length fits value (a.store x hx) where
  leaves hf := by
    obtain ⟨vs, rfl, hl, hv⟩ := h.leaves hf
    exact ⟨_, rfl, length_put _ _ (hx vs rfl), hv⟩
  throws hf := by
    obtain ⟨reason, rfl⟩ := h.throws hf
    exact ⟨reason, rfl⟩

/-- `if (++value[i] != 0) return;` from the words of the list on, and then the `throw`. -/
def incLoop : List Word → Except Fault (List Word)
  | [] => .error (.overflow "operator+= overflowed in resulting operation")
  | v :: vs => if v + 1 ≠ 0 then .ok ((v + 1) :: vs) else (incLoop vs).map ((v + 1) :: ·)

/-- `if (--value[i] != 0xFFFFFFFF) return;` from the words of the list on, and then the `throw`. -/
def decLoop : List Word → Except Fault (List Word)
  | [] => .error (.overflow "operator-= Underflow in resulting operation")
  | v :: vs =>
    if v - 1 ≠ 0xFFFFFFFF then .ok ((v - 1) :: vs) else (decLoop vs).map ((v - 1) :: ·)

theorem incLoop_length : ∀ {vs vs' : List Word}, incLoop vs = .ok vs' → vs'.length = vs.length
  | [], _, h => by cases h
  | v :: vs, vs', h => by
    rw [incLoop] at h
    split_ifs at h
    · cases h
      rfl
    · obtain ⟨tail, htail, rfl⟩ := map_eq_ok h
      exact congrArg (· + 1) (incLoop_length htail)

theorem decLoop_length : ∀ {vs vs' : List Word}, decLoop vs = .ok vs' → vs'.length = vs.length
  | [], _, h => by cases h
  | v :: vs, vs', h => by
    rw [decLoop] at h
    split_ifs at h
    · cases h
      rfl
    · obtain ⟨tail, htail, rfl⟩ := map_eq_ok h
      exact congrArg (· + 1) (decLoop_length htail)

theorem inc_word (v : Word) : (v + 1 = 0 ∧ v.toNat = 2 ^ 32 - 1) ∨
    (v + 1 ≠ 0 ∧ (v + 1).toNat = v.toNat + 1) := by
  have hv := v.isLt
  have hadd : (v + 1).toNat = (v.toNat + 1) % 2 ^ 32 := BitVec.toNat_add v 1
  rw [ne_eq, ← word_eq_zero, hadd]
  omega

theorem dec_word (v : Word) : (v - 1 = 0xFFFFFFFF ∧ v.toNat = 0) ∨
    (v - 1 ≠ 0xFFFFFFFF ∧ 0 < v.toNat ∧ (v - 1).toNat = v.toNat - 1) := by
  have hv := v.isLt
  have hsub : (v - 1).toNat = (2 ^ 32 - 1 + v.toNat) % 2 ^ 32 := BitVec.toNat_sub v 1
  have htop : v - 1 = 0xFFFFFFFF ↔ (v - 1).toNat = 2 ^ 32 - 1 := by
    rw [← BitVec.toNat_inj]
    rfl
  rw [ne_eq, htop, hsub]
  omega

theorem incLoop_ends : ∀ vs : List Word,
    Ends vs.length (val vs + 1 < 2 ^ (32 * vs.length)) (val vs + 1) (incLoop vs)
  | [] => ⟨fun h => absurd h (by decide), fun _ => ⟨_, rfl⟩⟩
  | v :: vs => by
    have hvs := val_lt vs
    rw [incLoop, List.length_cons, pow_words, val_cons]
    rcases inc_word v with ⟨hzero, hv⟩ | ⟨hne, hv⟩
    · rw [if_neg (not_not.mpr hzero), hzero]
      exact (incLoop_ends vs).cons 0 (by omega) fun _ => by rw [hv]; show 0 + _ = _; omega
    · have hlt := (v + 1).isLt
      rw [if_pos hne]
      refine .ok rfl (by omega) ?_
      rw [val_cons, hv]
      omega

theorem decLoop_ends : ∀ vs : List Word,
    Ends vs.length (1 ≤ val vs) (val vs - 1) (decLoop vs)
  | [] => ⟨fun h => absurd h (by decide), fun _ => ⟨_, rfl⟩⟩
  | v :: vs => by
    rw [decLoop, List.length_cons, val_cons]
    rcases dec_word v with ⟨htop, hv⟩ | ⟨hne, hpos, hv⟩
    · rw [if_neg (not_not.mpr htop), htop]
      refine (decLoop_ends vs).cons _ (by omega) fun h => ?_
      have : (0xFFFFFFFF : Word).toNat = 2 ^ 32 - 1 := rfl
      omega
    · rw [if_pos hne]
      refine .ok rfl (by omega) ?_
      rw [val_cons, hv]
      omega

/-- The body of `operator+=(uint32_t)`. -/
def addWord (n : Word) : List Word → Except Fault (List Word)
  | [] => .error .outOfBounds
  | v :: vs =>
    if v + n < n then (incLoop vs).map ((v + n) :: ·) else .ok ((v + n) :: vs)

/-- The body of `operator-=(uint32_t)`. -/
def subWord (n : Word) : List Word → Except Fault (List Word)
  | [] => .error .outOfBounds
  | v :: vs =>
    if n ≤ v then .ok ((v - n) :: vs) else (decLoop vs).map ((v - n) :: ·)

theorem addWord_length {n : Word} : ∀ {vs vs' : List Word}, addWord n vs = .ok vs' →
    vs'.length = vs.length
  | [], _, h => by cases h
  | v :: vs, vs', h => by
    rw [addWord] at h
    split_ifs at h
    · obtain ⟨tail, htail, rfl⟩ := map_eq_ok h
      exact congrArg (· + 1) (incLoop_length htail)
    · cases h
      rfl

theorem subWord_length {n : Word} : ∀ {vs vs' : List Word}, subWord n vs = .ok vs' →
    vs'.length = vs.length
  | [], _, h => by cases h
  | v :: vs, vs', h => by
    rw [subWord] at h
    split_ifs at h
    · cases h
      rfl
    · obtain ⟨tail, htail, rfl⟩ := map_eq_ok h
      exact congrArg (· + 1) (decLoop_length htail)

/-- `operator+=(uint32_t)`. -/
def addAssignWord (a : BigInt) (n : Word) : Except Fault BigInt :=
  a.store (addWord n a.value) fun _ => addWord_length

/-- `operator-=(uint32_t)`. -/
def subAssignWord (a : BigInt) (n : Word) : Except Fault BigInt :=
  a.store (subWord n a.value) fun _ => subWord_length

theorem addWord_ends (n : Word) : ∀ {vs : List Word}, 0 < vs.length →
    Ends vs.length (val vs + n.toNat < 2 ^ (32 * vs.length)) (val vs + n.toNat) (addWord n vs)
  | [], h => absurd h (Nat.lt_irrefl 0)
  | v :: vs, _ => by
    have hv := v.isLt
    have hn := n.isLt
    have hvs := val_lt vs
    have hadd : (v + n).toNat = (v.toNat + n.toNat) % 2 ^ 32 := BitVec.toNat_add v n
    have hlt : v + n < n ↔ (v.toNat + n.toNat) % 2 ^ 32 < n.toNat := by
      rw [BitVec.lt_def, hadd]
    rw [addWord, List.length_cons, pow_words, val_cons]
    by_cases hcarry : v + n < n
    · rw [if_pos hcarry]
      rw [hlt] at hcarry
      exact (incLoop_ends vs).cons _ (by omega) fun _ => by omega
    · rw [if_neg hcarry]
      rw [hlt] at hcarry
      refine .ok rfl (by omega) ?_
      rw [val_cons, hadd]
      omega

theorem subWord_ends (n : Word) : ∀ {vs : List Word}, 0 < vs.length →
    Ends vs.length (n.toNat ≤ val vs) (val vs - n.toNat) (subWord n vs)
  | [], h => absurd h (Nat.lt_irrefl 0)
  | v :: vs, _ => by
    have hv := v.isLt
    have hn := n.isLt
    have hsub : (v - n).toNat = (2 ^ 32 - n.toNat + v.toNat) % 2 ^ 32 := BitVec.toNat_sub v n
    rw [subWord, List.length_cons, val_cons]
    by_cases hle : n ≤ v
    · rw [if_pos hle]
      rw [BitVec.le_def] at hle
      refine .ok rfl (by omega) ?_
      rw [val_cons, hsub]
      omega
    · rw [if_neg hle]
      rw [BitVec.le_def] at hle
      exact (decLoop_ends vs).cons _ (by omega) fun _ => by omega

theorem addAssignWord_exact {a : BigInt} (ha : 0 < a.length) (n : Word) : Exact a.length
    (a.toNat + n.toNat < 2 ^ (32 * a.length)) (a.toNat + n.toNat) (a.addAssignWord n) :=
  (addWord_ends n ha).store _

theorem subAssignWord_exact {a : BigInt} (ha : 0 < a.length) (n : Word) :
    Exact a.length (n.toNat ≤ a.toNat) (a.toNat - n.toNat) (a.subAssignWord n) :=
  (subWord_ends n ha).store _

/-- The loop of `operator*=(uint32_t)`: the words of the product, and what is left of it. -/
def mulWordLoop (n : Word) : List Word → Nat → List Word × Nat
  | [], product => ([], product)
  | v :: vs, product =>
    let product := (product + n.toNat * v.toNat) % 2 ^ 64
    let r := mulWordLoop n vs (product >>> 32)
    (BitVec.ofNat 32 product :: r.1, r.2)

theorem mulWordLoop_length {n : Word} : ∀ vs product,
    (mulWordLoop n vs product).1.length = vs.length
  | [], _ => rfl
  | v :: vs, product => by
    rw [mulWordLoop, List.length_cons, List.length_cons, mulWordLoop_length]

/-- `operator*=(uint32_t)`. -/
def mulAssignWord (a : BigInt) (n : Word) : Except Fault BigInt :=
  let r := mulWordLoop n a.value 0
  if r.2 ≠ 0 then .error mulOverflow else .ok (a.put r.1 (mulWordLoop_length _ _))

theorem mulWordLoop_val (n : Word) : ∀ (vs : List Word) {product : Nat}, product < 2 ^ 32 →
    val (mulWordLoop n vs product).1 + 2 ^ (32 * vs.length) * (mulWordLoop n vs product).2 =
      val vs * n.toNat + product
  | [], product, _ => by
    rw [mulWordLoop, List.length_nil, Nat.mul_zero, Nat.pow_zero, val_nil]
    omega
  | v :: vs, product, hp => by
    have hmul := word_mul_le n v
    have hsum : product + n.toNat * v.toNat < 2 ^ 64 := by omega
    have ih := mulWordLoop_val n vs
      (show (product + n.toNat * v.toNat) / 2 ^ 32 < 2 ^ 32 by omega)
    rw [mulWordLoop, Nat.mod_eq_of_lt hsum, Nat.shiftRight_eq_div_pow, List.length_cons, pow_words,
      val_cons, val_cons, BitVec.toNat_ofNat, Nat.mul_assoc, Nat.add_mul, Nat.mul_assoc,
      Nat.mul_comm v.toNat]
    generalize 2 ^ (32 * vs.length) *
      (mulWordLoop n vs ((product + n.toNat * v.toNat) / 2 ^ 32)).2 = out at *
    omega

theorem mulAssignWord_exact (a : BigInt) (n : Word) : Exact a.length
    (a.toNat * n.toNat < 2 ^ (32 * a.length)) (a.toNat * n.toNat) (a.mulAssignWord n) := by
  have hval : val (mulWordLoop n a.value 0).1 +
      2 ^ (32 * a.length) * (mulWordLoop n a.value 0).2 = a.toNat * n.toNat + 0 :=
    mulWordLoop_val n a.value (by decide)
  have hr : val (mulWordLoop n a.value 0).1 < 2 ^ (32 * a.length) := by
    have := val_lt (mulWordLoop n a.value 0).1
    rwa [mulWordLoop_length] at this
  unfold mulAssignWord
  by_cases hout : (mulWordLoop n a.value 0).2 = 0
  · rw [if_neg (not_not.mpr hout)]
    rw [hout, Nat.mul_zero, Nat.add_zero, Nat.add_zero] at hval
    exact ⟨fun _ => ⟨_, rfl, length_put _ _ _, hval⟩, fun h => absurd (hval ▸ hr) h⟩
  · have := Nat.le_mul_of_pos_right (2 ^ (32 * a.length)) (Nat.pos_of_ne_zero hout)
    rw [if_pos hout]
    exact ⟨fun h => by omega, fun _ => ⟨_, rfl⟩⟩

/-- `Compare(uint32_t)`. With no words it reads outside of the array. -/
def compareNum (a : BigInt) (n : Word) : Except Fault Int :=
  highLoop a.value 1 (a.length - 1) >>= fun found =>
    if found then .ok 1
    else
      match a.value with
      | [] => .error .outOfBounds
      | v :: _ => .ok (if v > n then 1 else if v < n then -1 else 0)

theorem compareNum_eq {a : BigInt} (ha : 0 < a.length) (n : Word) :
    a.compareNum n = .ok (order a.toNat n.toNat) := by
  have hn := n.isLt
  rw [compareNum, high_eq Nat.one_pos ha]
  by_cases hhigh : 2 ^ (32 * 1) ≤ a.toNat
  · rw [decide_eq_true hhigh, order, if_pos (by omega)]
    rfl
  · rw [decide_eq_false hhigh]
    unfold toNat at hhigh ⊢
    rw [length] at ha
    cases hvs : a.value with
    | nil =>
      rw [hvs] at ha
      exact absurd ha (Nat.lt_irrefl 0)
    | cons v vs =>
      rw [hvs, val_cons] at hhigh
      have hvalue : val (v :: vs) = v.toNat := by
        rw [val_cons]
        omega
      rw [hvalue]
      rfl

/-! ## All of them -/

/-- Every operator on `a` and `n`, or on `a` and the `uint32_t` `w`, is exact, and both comparisons
have the order of the numbers. -/
structure ExactArithmetic (a n : BigInt) (w : Word) : Prop where
  add : Exact a.length (a.toNat + n.toNat < 2 ^ (32 * a.length)) (a.toNat + n.toNat)
    (a.addAssign n)
  sub : Exact a.length (n.toNat ≤ a.toNat) (a.toNat - n.toNat) (a.subAssign n)
  mul : Exact a.length (a.toNat * n.toNat < 2 ^ (32 * a.length)) (a.toNat * n.toNat)
    (a.mulAssign n)
  addWord : Exact a.length (a.toNat + w.toNat < 2 ^ (32 * a.length)) (a.toNat + w.toNat)
    (a.addAssignWord w)
  subWord : Exact a.length (w.toNat ≤ a.toNat) (a.toNat - w.toNat) (a.subAssignWord w)
  mulWord : Exact a.length (a.toNat * w.toNat < 2 ^ (32 * a.length)) (a.toNat * w.toNat)
    (a.mulAssignWord w)
  compare : a.compare n = .ok (order a.toNat n.toNat)
  compareWord : a.compareNum w = .ok (order a.toNat w.toNat)

/-- **When the arithmetic is exact.** Only `*=` of two numbers can go wrong: when the indices of two
words that are not 0 sum to `2 ^ 32` or more, and the products at the places that are left of them
still fit. -/
theorem arithmetic_exact_iff {a n : BigInt} (ha : 0 < a.length) (hn : 0 < n.length) (w : Word) :
    ExactArithmetic a n w ↔ NoWrap a n ∨ 2 ^ (32 * a.length) ≤ wrappedProduct a n := by
  constructor
  · intro h
    exact (mulAssign_exact_iff a n).mp h.mul
  · intro h
    exact {
      add := addAssign_exact a n
      sub := subAssign_exact a n
      mul := (mulAssign_exact_iff a n).mpr h
      addWord := addAssignWord_exact ha w
      subWord := subAssignWord_exact ha w
      mulWord := mulAssignWord_exact a w
      compare := compare_eq ha hn
      compareWord := compareNum_eq ha w }

/-- One word of 3 and two words, the upper one 1. -/
theorem arithmetic_exact_small :
    ExactArithmetic ⟨[3], by decide⟩ ⟨[0, 1], by decide⟩ 5 ∧
      NoWrap ⟨[3], by decide⟩ ⟨[0, 1], by decide⟩ := by
  have hwrap : NoWrap ⟨[3], by decide⟩ ⟨[0, 1], by decide⟩ := by
    intro i j hi hj _ _
    simp only [List.length_cons, List.length_nil] at hi hj
    omega
  exact ⟨(arithmetic_exact_iff (by decide) (by decide) 5).mpr (.inl hwrap), hwrap⟩

/-- The power `2 ^ (32 * top)`, in `top + 1` words. -/
def topPower (top : Nat) (h : top + 1 < 2 ^ 32) : BigInt where
  value := List.replicate top 0 ++ [1]
  length_lt := by
    rw [List.length_append, List.length_replicate]
    exact h

theorem rowSum_append (i : Nat) (m : Word) : ∀ (ns ns' : List Word) (j : Nat),
    rowSum i m j (ns ++ ns') = rowSum i m j ns + rowSum i m (j + ns.length) ns'
  | [], ns', j => (Nat.zero_add _).symm
  | n :: ns, ns', j => by
    have hplace : j + 1 + ns.length = j + (ns.length + 1) := by omega
    rw [List.cons_append, rowSum, rowSum, rowSum_append i m ns ns' (j + 1), List.length_cons, hplace]
    exact (Nat.add_assoc _ _ _).symm

theorem loopSum_append (ns : List Word) : ∀ (ms ms' : List Word) (i : Nat),
    loopSum ns i (ms ++ ms') = loopSum ns i ms + loopSum ns (i + ms.length) ms'
  | [], ms', i => (Nat.zero_add _).symm
  | m :: ms, ms', i => by
    have hplace : i + 1 + ms.length = i + (ms.length + 1) := by omega
    rw [List.cons_append, loopSum, loopSum, loopSum_append ns ms ms' (i + 1), List.length_cons,
      hplace]
    exact (Nat.add_assoc _ _ _).symm

theorem rowSum_replicate (i : Nat) (m : Word) : ∀ k j, rowSum i m j (List.replicate k 0) = 0
  | 0, _ => rfl
  | k + 1, j => by
    have hzero : m.toNat * (0 : Word).toNat = 0 := Nat.mul_zero _
    rw [List.replicate_succ, rowSum, rowSum_replicate i m k (j + 1), hzero, Nat.mul_zero]

theorem rowSum_zero (i : Nat) : ∀ (ns : List Word) (j : Nat), rowSum i 0 j ns = 0
  | [], _ => rfl
  | n :: ns, j => by
    rw [rowSum, rowSum_zero i ns (j + 1), show (0 : Word).toNat = 0 from rfl, Nat.zero_mul]
    rfl

theorem loopSum_replicate (ns : List Word) : ∀ k i, loopSum ns i (List.replicate k 0) = 0
  | 0, _ => rfl
  | k + 1, i => by rw [List.replicate_succ, loopSum, rowSum_zero, loopSum_replicate ns k (i + 1)]

/-- The only product of two such powers is at its wrapped place. -/
theorem wrappedProduct_topPower {s t : Nat} (hs : s + 1 < 2 ^ 32) (ht : t + 1 < 2 ^ 32) :
    wrappedProduct (topPower s hs) (topPower t ht) = 2 ^ (32 * ((s + t) % 2 ^ 32)) := by
  simp only [wrappedProduct, topPower, loopSum_append, loopSum_replicate, List.length_replicate,
    loopSum, rowSum_append, rowSum_replicate, rowSum]
  simp only [Nat.zero_add, Nat.add_zero]
  exact Nat.mul_one _

theorem length_topPower {top : Nat} (h : top + 1 < 2 ^ 32) :
    (topPower top h).length = top + 1 := by
  rw [length, topPower, List.length_append, List.length_replicate]
  rfl

/-- The square of such a power with its only product at a wrapped place. -/
theorem topPower_not_exact {t : Nat} (ht : t + 1 < 2 ^ 32) (hwrap : 2 ^ 32 ≤ t + t) (w : Word) :
    ¬ ExactArithmetic (topPower t ht) (topPower t ht) w := by
  intro h
  have hlow : wrappedProduct (topPower t ht) (topPower t ht) <
      2 ^ (32 * (topPower t ht).length) := by
    rw [wrappedProduct_topPower ht ht, length_topPower]
    exact Nat.pow_lt_pow_right (by decide) (by omega)
  rcases (mulAssign_exact_iff _ _).mp h.mul with hno | hover
  · have hi : t < (topPower t ht).value.length := by
      have := length_topPower ht
      rw [length] at this
      omega
    have hne : (topPower t ht).value[t] ≠ 0 := by
      simp [topPower]
    have := hno t t hi hi hne hne
    omega
  · omega

/-- `2 ^ (32 * 2 ^ 31)` times itself. -/
theorem square_wraps : ¬ ∀ (a n : BigInt) (w : Word), 0 < a.length → 0 < n.length →
    ExactArithmetic a n w := by
  intro h
  have ht : 2 ^ 31 + 1 < 2 ^ 32 := by decide
  have hlen : 0 < (topPower (2 ^ 31) ht).length := by
    rw [length_topPower]
    exact Nat.succ_pos _
  exact topPower_not_exact ht (by decide) 0 (h _ _ 0 hlen hlen)

end Quals2017.Godzilla.BigInt
