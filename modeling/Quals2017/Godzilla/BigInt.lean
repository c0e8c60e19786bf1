import Quals2017.Lib.Limbs
import Quals2017.Lib.Outcome
import Mathlib.Tactic.Linarith
import Mathlib.Tactic.SplitIfs

/-!
# Big numbers (`godzilla/server/bigint.cpp`)

A `BigInt` holds `length` words of 32 bits, the lowest first. The loops of the operators run over
the list of the words, and `uint32_t` indices and `uint64_t` sums wrap where those of the source
do. An operator returns the number it leaves in its left operand, or the `Fault` it ends with.

* `assign_ok`, `assignWord_ok`: `operator=` (`:46-67`).
* `subAssign_ok`: `operator-=` (`:114-135`) is exact when the difference is not negative.
* `mulAssign_fits`, `mulAssign_throws`: `operator*=` (`:154-186`) leaves the sum of the products at
  the places where their 32-bit indices `i + j` are, if that fits.
* `mulAssign_ok`, `mulAssign_error`: so it is exact when the product fits, and throws when it does
  not, as long as no index `i + j` of two words that are not 0 wraps.
* `compare_eq`: `Compare` (`:229-265`) compares the numbers.
* `shift_ok`: `shift` (`:332-343`) doubles the number and adds the bit.
-/

namespace Quals2017.Godzilla

open Quals2017.Lib Quals2017.Lib.Limbs

/-- `uint32_t`. -/
abbrev Word := BitVec 32

/-- How an operator can end other than by returning. -/
inductive Fault
  /-- `throw new BigIntOverflow(reason)`. -/
  | overflow (reason : String)
  /-- An index outside `value`. -/
  | outOfBounds
  deriving DecidableEq, Repr

/-- `value` and its length, which is a `uint32_t`. -/
structure BigInt where
  value : List Word
  length_lt : value.length < 2 ^ 32

namespace BigInt

def length (a : BigInt) : Nat := a.value.length

/-- The number it stands for. -/
def toNat (a : BigInt) : Nat := val a.value

/-- `BigInt(len)`. What `new` leaves in the words is never read: they are assigned first. -/
def new (len : Word) : BigInt where
  value := List.replicate len.toNat 0
  length_lt := by
    rw [List.length_replicate]
    exact len.isLt

/-- New words in the array of `a`. -/
def put (a : BigInt) (value : List Word) (h : value.length = a.value.length) : BigInt where
  value := value
  length_lt := h ▸ a.length_lt

theorem toNat_lt (a : BigInt) : a.toNat < 2 ^ (32 * a.length) := val_lt a.value

theorem length_pos_of_toNat_pos {a : BigInt} (h : 0 < a.toNat) : 0 < a.length := by
  refine Nat.pos_of_ne_zero fun hl => ?_
  have := a.toNat_lt
  rw [hl, Nat.mul_zero, Nat.pow_zero] at this
  omega

@[simp] theorem length_new (len : Word) : (new len).length = len.toNat := List.length_replicate

@[simp] theorem length_put (a : BigInt) (value : List Word) (h : value.length = a.value.length) :
    (a.put value h).length = a.length := h

@[simp] theorem toNat_put (a : BigInt) (value : List Word) (h : value.length = a.value.length) :
    (a.put value h).toNat = val value := rfl

/-! ## Assignment -/

/-- `operator=(const BigInt &)`: the words that fit, zeros above them, and the rest must be 0. -/
def assign (a n : BigInt) : Except Fault BigInt :=
  if ∀ x ∈ n.value.drop a.length, x = 0 then
    .ok (a.put (n.value.take a.length ++ List.replicate (a.length - n.length) 0) (by
      rw [List.length_append, List.length_take, List.length_replicate, length, length]
      omega))
  else
    .error (.overflow "operator= incoming value too large!")

/-- `operator=(uint32_t)`. -/
def assignWord (a : BigInt) (n : Word) : Except Fault BigInt :=
  match h : a.value with
  | [] => .error .outOfBounds
  | _ :: vs => .ok (a.put (n :: List.replicate vs.length 0) (by
      rw [h, List.length_cons, List.length_replicate, List.length_cons]))

theorem assign_ok {a n : BigInt} (h : n.toNat < 2 ^ (32 * a.length)) :
    ∃ r, a.assign n = .ok r ∧ r.length = a.length ∧ r.toNat = n.toNat := by
  refine ⟨_, if_pos (val_eq_zero.mp (val_drop_eq_zero h)), length_put _ _ _, ?_⟩
  rw [toNat_put, val_append, val_replicate_zero, Nat.mul_zero, Nat.add_zero]
  exact val_take_of_lt h

theorem assignWord_ok {a : BigInt} (h : 0 < a.length) (n : Word) :
    ∃ r, a.assignWord n = .ok r ∧ r.length = a.length ∧ r.toNat = n.toNat := by
  unfold assignWord
  split
  · next hnil =>
    rw [length, hnil] at h
    exact absurd h (Nat.lt_irrefl 0)
  · refine ⟨_, rfl, length_put _ _ _, ?_⟩
    rw [toNat_put, val_cons, val_replicate_zero, Nat.mul_zero, Nat.add_zero]

/-! ## Subtraction -/

/-- The loop of `operator-=`: the words of the difference, and the last borrow. -/
def subLoop : List Word → List Word → Nat → List Word × Nat
  | [], _, borrow => ([], borrow)
  | v :: vs, ns, borrow =>
    let subtrahend := (ns.headD 0).toNat + borrow
    let r := subLoop vs ns.tail (if v.toNat < subtrahend then 1 else 0)
    ((v - BitVec.ofNat 32 subtrahend) :: r.1, r.2)

theorem subLoop_length : ∀ vs ns borrow, (subLoop vs ns borrow).1.length = vs.length
  | [], _, _ => rfl
  | v :: vs, ns, borrow => by
    rw [subLoop, List.length_cons, List.length_cons, subLoop_length]

/-- `operator-=(const BigInt &)`. -/
def subAssign (a n : BigInt) : Except Fault BigInt :=
  let r := subLoop a.value n.value 0
  if r.2 ≠ 0 then .error (.overflow "operator-= Underflow in resulting operation")
  else if ∃ x ∈ n.value.drop a.length, x ≠ 0 then
    .error (.overflow "operator-= Underflow in resulting operation")
  else .ok (a.put r.1 (subLoop_length _ _ _))

/-- One word of the difference. -/
theorem sub_word (v : Word) {s : Nat} (hs : s ≤ 2 ^ 32) :
    v.toNat + 2 ^ 32 * (if v.toNat < s then 1 else 0) =
      (v - BitVec.ofNat 32 s).toNat + s := by
  have hv := v.isLt
  rw [BitVec.toNat_sub, BitVec.toNat_ofNat]
  split_ifs with h
  · rcases Nat.eq_or_lt_of_le hs with rfl | hlt
    · omega
    · omega
  · omega

theorem val_take_cons (ns : List Word) (n : Nat) :
    val (ns.take (n + 1)) = (ns.headD 0).toNat + 2 ^ 32 * val (ns.tail.take n) := by
  cases ns with
  | nil => rw [List.take_nil, List.tail_nil, List.take_nil]; rfl
  | cons x xs => rfl

theorem subLoop_val : ∀ (vs ns : List Word) {borrow : Nat}, borrow ≤ 1 →
    val vs + 2 ^ (32 * vs.length) * (subLoop vs ns borrow).2 =
      val (subLoop vs ns borrow).1 + val (ns.take vs.length) + borrow
  | [], ns, borrow, _ => by
    rw [subLoop, List.length_nil, Nat.mul_zero, Nat.pow_zero, List.take_zero, val_nil]
    omega
  | v :: vs, ns, borrow, hb => by
    have hn := (ns.headD 0).isLt
    have hword := sub_word v (show (ns.headD 0).toNat + borrow ≤ 2 ^ 32 by omega)
    have ih := subLoop_val vs ns.tail
      (show (if v.toNat < (ns.headD 0).toNat + borrow then 1 else 0) ≤ 1 by split_ifs <;> omega)
    rw [subLoop, List.length_cons, pow_words, val_take_cons, val_cons, val_cons, Nat.mul_assoc]
    generalize (if v.toNat < (ns.headD 0).toNat + borrow then 1 else 0) = borrow' at *
    generalize 2 ^ (32 * vs.length) * (subLoop vs ns.tail borrow').2 = out at *
    omega

theorem subLoop_out_le : ∀ (vs ns : List Word) {borrow : Nat}, borrow ≤ 1 →
    (subLoop vs ns borrow).2 ≤ 1
  | [], _, _, hb => hb
  | v :: vs, ns, borrow, _ => subLoop_out_le vs ns.tail (by split_ifs <;> omega)

theorem subAssign_ok {a n : BigInt} (h : n.toNat ≤ a.toNat) :
    ∃ r, a.subAssign n = .ok r ∧ r.length = a.length ∧ r.toNat = a.toNat - n.toNat := by
  have hn : n.toNat < 2 ^ (32 * a.length) := Nat.lt_of_le_of_lt h a.toNat_lt
  have hval : a.toNat + 2 ^ (32 * a.length) * (subLoop a.value n.value 0).2 =
      val (subLoop a.value n.value 0).1 + val (n.value.take a.length) + 0 :=
    subLoop_val a.value n.value (Nat.zero_le 1)
  have hr : val (subLoop a.value n.value 0).1 < 2 ^ (32 * a.length) := by
    have := val_lt (subLoop a.value n.value 0).1
    rwa [subLoop_length] at this
  rw [val_take_of_lt hn, ← toNat] at hval
  have hout : (subLoop a.value n.value 0).2 = 0 := by
    by_contra hne
    have := Nat.le_mul_of_pos_right (2 ^ (32 * a.length)) (Nat.pos_of_ne_zero hne)
    omega
  have hhigh := val_eq_zero.mp (val_drop_eq_zero hn)
  refine ⟨a.put _ (subLoop_length a.value n.value 0), ?_, length_put _ _ _, ?_⟩
  · unfold subAssign
    rw [if_neg (not_not.mpr hout), if_neg]
    rintro ⟨x, hx, hne⟩
    exact hne (hhigh x hx)
  · rw [hout, Nat.mul_zero] at hval
    rw [toNat_put]
    omega

/-! ## Multiplication -/

/-- What `operator*=` throws. -/
def mulOverflow : Fault := .overflow "operator*= overflow in resulting operation"

/-- The `while` loop of `operator*=`: `product` added to the words from index `k` on. -/
def addAt : List Word → Nat → Nat → Except Fault (List Word)
  | [], _, product => if product ≠ 0 then .error mulOverflow else .ok []
  | v :: vs, k + 1, product => (addAt vs k product).map (v :: ·)
  | v :: vs, 0, product =>
    if product ≠ 0 then
      let sum := (product + v.toNat) % 2 ^ 64
      (addAt vs 0 (sum / 2 ^ 32)).map (BitVec.ofNat 32 sum :: ·)
    else .ok (v :: vs)

/-- The loop over the words of `n` at index `j`, for the word `multiplier[i]`. -/
def mulRow (i : Nat) (multiplier : Word) : Nat → List Word → List Word → Except Fault (List Word)
  | _, [], value => .ok value
  | j, n :: ns, value =>
    addAt value ((i + j) % 2 ^ 32) (multiplier.toNat * n.toNat % 2 ^ 64) >>=
      mulRow i multiplier (j + 1) ns

/-- The loop over the words of `multiplier` at index `i`. -/
def mulLoop (ns : List Word) : Nat → List Word → List Word → Except Fault (List Word)
  | _, [], value => .ok value
  | i, m :: ms, value => mulRow i m 0 ns value >>= mulLoop ns (i + 1) ms

theorem addAt_length : ∀ {vs vs' : List Word} {k product : Nat},
    addAt vs k product = .ok vs' → vs'.length = vs.length
  | [], vs', k, product, h => by
    rw [addAt] at h
    split_ifs at h
    cases h
    rfl
  | v :: vs, vs', k + 1, product, h => by
    obtain ⟨tail, htail, rfl⟩ := map_eq_ok h
    exact congrArg (· + 1) (addAt_length htail)
  | v :: vs, vs', 0, product, h => by
    rw [addAt] at h
    split_ifs at h
    · obtain ⟨tail, htail, rfl⟩ := map_eq_ok h
      exact congrArg (· + 1) (addAt_length htail)
    · cases h
      rfl

theorem mulRow_length {i : Nat} {m : Word} : ∀ {ns value value' : List Word} {j : Nat},
    mulRow i m j ns value = .ok value' → value'.length = value.length
  | [], value, value', j, h => by
    cases h
    rfl
  | n :: ns, value, value', j, h => by
    obtain ⟨mid, hmid, h⟩ := bind_eq_ok h
    rw [mulRow_length h, addAt_length hmid]

theorem mulLoop_length {ns : List Word} : ∀ {ms value value' : List Word} {i : Nat},
    mulLoop ns i ms value = .ok value' → value'.length = value.length
  | [], value, value', i, h => by
    cases h
    rfl
  | m :: ms, value, value', i, h => by
    obtain ⟨mid, hmid, h⟩ := bind_eq_ok h
    rw [mulLoop_length h, mulRow_length hmid]

/-- `operator*=(const BigInt &)`, of two numbers that do not share their words. -/
def mulAssign (a n : BigInt) : Except Fault BigInt :=
  match h : mulLoop n.value 0 a.value (List.replicate a.length 0) with
  | .ok value => .ok (a.put value ((mulLoop_length h).trans List.length_replicate))
  | .error e => .error e

/-- What a loop of `operator*=` leaves, given the number it should leave: that number, in the same
number of words, if it fits. -/
structure Leaves (length total : Nat) (x : Except Fault (List Word)) : Prop where
  fits : total < 2 ^ (32 * length) →
    ∃ value, x = .ok value ∧ value.length = length ∧ val value = total
  throws : 2 ^ (32 * length) ≤ total → x = .error mulOverflow

theorem Leaves.ok {length total : Nat} {value : List Word} (hl : value.length = length)
    (hv : val value = total) : Leaves length total (.ok value) where
  fits _ := ⟨value, rfl, hl, hv⟩
  throws h := by
    have := val_lt value
    rw [hl, hv] at this
    omega

/-- What comes later only adds to the number. -/
theorem Leaves.bind {length total total' : Nat} {x : Except Fault (List Word)}
    {f : List Word → Except Fault (List Word)} (hx : Leaves length total x) (hle : total ≤ total')
    (hf : ∀ value, value.length = length → val value = total → Leaves length total' (f value)) :
    Leaves length total' (x >>= f) := by
  by_cases hfit : total < 2 ^ (32 * length)
  · obtain ⟨value, rfl, hl, hv⟩ := hx.fits hfit
    exact hf value hl hv
  · rw [hx.throws (Nat.le_of_not_lt hfit)]
    exact ⟨fun h => absurd (Nat.lt_of_le_of_lt hle h) hfit, fun _ => rfl⟩

/-- A word below. -/
theorem Leaves.cons {length total total' : Nat} {x : Except Fault (List Word)} (v : Word)
    (hx : Leaves length total x) (htotal : total' = v.toNat + 2 ^ 32 * total) :
    Leaves (length + 1) total' (x.map (v :: ·)) := by
  have hv := v.isLt
  by_cases hfit : total < 2 ^ (32 * length)
  · obtain ⟨value, rfl, hl, hval⟩ := hx.fits hfit
    refine .ok (congrArg (· + 1) hl) ?_
    rw [val_cons, hval, htotal]
  · have hle := Nat.le_of_not_lt hfit
    refine ⟨fun h => ?_, fun _ => by rw [hx.throws hle]; rfl⟩
    rw [htotal, pow_words] at h
    omega

/-- **The `while` loop adds the product at its place.** -/
theorem addAt_leaves (vs : List Word) (k : Nat) {product : Nat} (hp : product ≤ (2 ^ 32 - 1) ^ 2) :
    Leaves vs.length (val vs + 2 ^ (32 * k) * product) (addAt vs k product) := by
  induction vs generalizing k product with
  | nil =>
    rw [addAt]
    split_ifs with hzero
    · have := Nat.le_mul_of_pos_left product (Nat.two_pow_pos (32 * k))
      refine ⟨fun h => ?_, fun _ => rfl⟩
      rw [List.length_nil, val_nil, Nat.mul_zero, Nat.pow_zero] at h
      omega
    · rw [not_not.mp hzero, Nat.mul_zero]
      exact .ok rfl rfl
  | cons v vs ih =>
    cases k with
    | succ k =>
      have htail := ih k hp
      rw [addAt]
      refine htail.cons v ?_
      rw [val_cons, pow_words]
      ring
    | zero =>
      have hv := v.isLt
      rw [addAt]
      split_ifs with hzero
      · have hsum : product + v.toNat < 2 ^ 64 := by omega
        have hcarry : (product + v.toNat) / 2 ^ 32 ≤ (2 ^ 32 - 1) ^ 2 := by omega
        rw [Nat.mod_eq_of_lt hsum]
        refine (ih 0 hcarry).cons _ ?_
        rw [val_cons, BitVec.toNat_ofNat, Nat.mul_zero, Nat.pow_zero]
        omega
      · rw [not_not.mp hzero, Nat.mul_zero]
        exact .ok rfl rfl

theorem word_mul_le (m n : Word) : m.toNat * n.toNat ≤ (2 ^ 32 - 1) ^ 2 := by
  have hm := m.isLt
  have hn := n.isLt
  exact (Nat.mul_le_mul (Nat.le_pred_of_lt hm) (Nat.le_pred_of_lt hn)).trans (by decide)

/-- What the loop over `n` adds for the word `m` at index `i`: each product at the place where its
`uint32_t` index is. -/
def rowSum (i : Nat) (m : Word) : Nat → List Word → Nat
  | _, [] => 0
  | j, n :: ns => 2 ^ (32 * ((i + j) % 2 ^ 32)) * (m.toNat * n.toNat) + rowSum i m (j + 1) ns

/-- What the loops of `operator*=` add from index `i` on. -/
def loopSum (ns : List Word) : Nat → List Word → Nat
  | _, [] => 0
  | i, m :: ms => rowSum i m 0 ns + loopSum ns (i + 1) ms

/-- The sum of the products of the words at the places `(i + j) % 2 ^ 32`. -/
def wrappedProduct (a n : BigInt) : Nat := loopSum n.value 0 a.value

theorem mulRow_leaves (i : Nat) (m : Word) : ∀ (ns : List Word) (j : Nat) (value : List Word),
    Leaves value.length (val value + rowSum i m j ns) (mulRow i m j ns value)
  | [], j, value => by
    rw [mulRow, rowSum, Nat.add_zero]
    exact .ok rfl rfl
  | n :: ns, j, value => by
    have hle := word_mul_le m n
    have hprod : m.toNat * n.toNat < 2 ^ 64 := by omega
    rw [mulRow, Nat.mod_eq_of_lt hprod, rowSum, ← Nat.add_assoc]
    refine (addAt_leaves value ((i + j) % 2 ^ 32) hle).bind (Nat.le_add_right _ _) ?_
    intro value' hl hv
    rw [← hl, ← hv]
    exact mulRow_leaves i m ns (j + 1) value'

theorem mulLoop_leaves (ns : List Word) : ∀ (ms : List Word) (i : Nat) (value : List Word),
    Leaves value.length (val value + loopSum ns i ms) (mulLoop ns i ms value)
  | [], i, value => by
    rw [mulLoop, loopSum, Nat.add_zero]
    exact .ok rfl rfl
  | m :: ms, i, value => by
    rw [mulLoop, loopSum, ← Nat.add_assoc]
    refine (mulRow_leaves i m ns 0 value).bind (Nat.le_add_right _ _) ?_
    intro value' hl hv
    rw [← hl, ← hv]
    exact mulLoop_leaves ns ms (i + 1) value'

/-- **What `*=` leaves**, whatever wraps: the products at their wrapped places. -/
theorem mulLoop_wrapped (a n : BigInt) : Leaves a.length (wrappedProduct a n)
    (mulLoop n.value 0 a.value (List.replicate a.length 0)) := by
  have := mulLoop_leaves n.value a.value 0 (List.replicate a.length 0)
  rwa [List.length_replicate, val_replicate_zero, Nat.zero_add] at this

/-- Where no index of two words that are not 0 wraps, the products are at their places. -/
theorem rowSum_eq (i : Nat) (m : Word) : ∀ (ns : List Word) (j : Nat),
    (∀ k (hk : k < ns.length), m ≠ 0 → ns[k] ≠ 0 → i + (j + k) < 2 ^ 32) →
      rowSum i m j ns = 2 ^ (32 * (i + j)) * (m.toNat * val ns)
  | [], j, _ => by rw [rowSum, val_nil, Nat.mul_zero, Nat.mul_zero]
  | n :: ns, j, hwrap => by
    have hplace : 2 ^ (32 * ((i + j) % 2 ^ 32)) * (m.toNat * n.toNat) =
        2 ^ (32 * (i + j)) * (m.toNat * n.toNat) := by
      by_cases hzero : m = 0 ∨ n = 0
      · have : m.toNat * n.toNat = 0 := by
          rcases hzero with rfl | rfl
          · exact Nat.zero_mul _
          · exact Nat.mul_zero _
        rw [this, Nat.mul_zero, Nat.mul_zero]
      · have := hwrap 0 (Nat.succ_pos _) (fun h => hzero (.inl h)) fun h => hzero (.inr h)
        rw [Nat.mod_eq_of_lt (by omega)]
    have htail := rowSum_eq i m ns (j + 1) fun k hk hm hn => by
      have := hwrap (k + 1) (Nat.succ_lt_succ hk) hm hn
      omega
    rw [rowSum, hplace, htail, val_cons, ← Nat.add_assoc i j 1, pow_words]
    ring

theorem loopSum_eq (ns : List Word) : ∀ (ms : List Word) (i : Nat),
    (∀ k j (hk : k < ms.length) (hj : j < ns.length), ms[k] ≠ 0 → ns[j] ≠ 0 →
      i + k + j < 2 ^ 32) →
      loopSum ns i ms = 2 ^ (32 * i) * (val ms * val ns)
  | [], i, _ => by rw [loopSum, val_nil, Nat.zero_mul, Nat.mul_zero]
  | m :: ms, i, hwrap => by
    have hrow := rowSum_eq i m ns 0 fun k hk hm hn => by
      have := hwrap 0 k (Nat.succ_pos _) hk hm hn
      omega
    have htail := loopSum_eq ns ms (i + 1) fun k j hk hj hm hn => by
      have := hwrap (k + 1) j (Nat.succ_lt_succ hk) hj hm hn
      omega
    rw [loopSum, hrow, htail, val_cons, pow_words, Nat.add_zero]
    ring

/-- No index of two words that are not 0 wraps. -/
def NoWrap (a n : BigInt) : Prop :=
  ∀ i j (hi : i < a.value.length) (hj : j < n.value.length),
    a.value[i] ≠ 0 → n.value[j] ≠ 0 → i + j < 2 ^ 32

theorem wrappedProduct_eq {a n : BigInt} (h : NoWrap a n) :
    wrappedProduct a n = a.toNat * n.toNat := by
  rw [wrappedProduct, loopSum_eq n.value a.value 0 fun k j hk hj hm hn => by
    have := h k j hk hj hm hn
    omega]
  rw [Nat.mul_zero, Nat.pow_zero, Nat.one_mul, toNat, toNat]

/-- A word that is not 0 counts at least 1 at its place. -/
theorem place_le {a : BigInt} {i : Nat} (hi : i < a.value.length) (ha : a.value[i] ≠ 0) :
    2 ^ (32 * i) ≤ a.toNat :=
  Nat.le_trans (Nat.le_mul_of_pos_right _ (Nat.pos_of_ne_zero (mt word_eq_zero.mp ha)))
    (le_val a.value hi)

/-- A product that fits in the words of `a` keeps its indices below their number. -/
theorem noWrap_of_fits {a n : BigInt} (h : a.toNat * n.toNat < 2 ^ (32 * a.length)) :
    NoWrap a n := by
  intro i j hi hj ha hn
  have hplace := Nat.mul_le_mul (place_le hi ha) (place_le hj hn)
  rw [← Nat.pow_add, ← Nat.mul_add] at hplace
  have hlt := (Nat.pow_lt_pow_iff_right (by decide)).mp (Nat.lt_of_le_of_lt hplace h)
  have hlen : a.length < 2 ^ 32 := a.length_lt
  omega

/-- Numbers of `x + 1` and `y + 1` words have no word above. -/
theorem noWrap_of_lt {a n : BigInt} {x y : Nat} (ha : a.toNat < 2 ^ (32 * (x + 1)))
    (hn : n.toNat < 2 ^ (32 * (y + 1))) (h : x + y < 2 ^ 32) : NoWrap a n := by
  intro i j hi hj hai hnj
  have hix := (Nat.pow_lt_pow_iff_right (by decide)).mp (Nat.lt_of_le_of_lt (place_le hi hai) ha)
  have hjy := (Nat.pow_lt_pow_iff_right (by decide)).mp (Nat.lt_of_le_of_lt (place_le hj hnj) hn)
  omega

/-- `*=` from what its loops leave. -/
theorem mulAssign_fits {a n : BigInt} (h : wrappedProduct a n < 2 ^ (32 * a.length)) :
    ∃ r, a.mulAssign n = .ok r ∧ r.length = a.length ∧ r.toNat = wrappedProduct a n := by
  obtain ⟨value, hvalue, -, hval⟩ := (mulLoop_wrapped a n).fits h
  unfold mulAssign
  split
  · next value' h' =>
    rw [hvalue] at h'
    cases h'
    exact ⟨_, rfl, length_put _ _ _, hval⟩
  · next h' =>
    rw [hvalue] at h'
    cases h'

theorem mulAssign_throws {a n : BigInt} (h : 2 ^ (32 * a.length) ≤ wrappedProduct a n) :
    a.mulAssign n = .error mulOverflow := by
  have herror := (mulLoop_wrapped a n).throws h
  unfold mulAssign
  split
  · next h' =>
    rw [herror] at h'
    cases h'
  · next e h' =>
    rw [herror] at h'
    cases h'
    rfl

theorem mulAssign_ok {a n : BigInt} (h : a.toNat * n.toNat < 2 ^ (32 * a.length)) :
    ∃ r, a.mulAssign n = .ok r ∧ r.length = a.length ∧ r.toNat = a.toNat * n.toNat := by
  have hproduct := wrappedProduct_eq (noWrap_of_fits h)
  rw [← hproduct] at h ⊢
  exact mulAssign_fits h

theorem mulAssign_error {a n : BigInt} (hwrap : NoWrap a n)
    (h : 2 ^ (32 * a.length) ≤ a.toNat * n.toNat) : a.mulAssign n = .error mulOverflow := by
  rw [← wrappedProduct_eq hwrap] at h
  exact mulAssign_throws h

/-! ## Comparison -/

/-- `IsZero`. -/
def isZero (a : BigInt) : Bool := a.value.all (· == 0)

theorem isZero_iff {a : BigInt} : a.isZero = true ↔ a.toNat = 0 := by
  rw [isZero, List.all_eq_true, toNat, val_eq_zero]
  simp only [beq_iff_eq]

/-- `if (value[i] != 0) return …`: whether it returns, or else what comes next. -/
def highWord (vs : List Word) (i : Nat) (next : Except Fault Bool) : Except Fault Bool :=
  match vs[i]? with
  | none => .error .outOfBounds
  | some v => if v ≠ 0 then .ok true else next

/-- `for (…; i >= low; i--)` from index `i`: whether it finds a word that is not 0. With `low` 0 the
index wraps behind 0 and leaves the array. -/
def highLoop (vs : List Word) (low : Nat) : Nat → Except Fault Bool
  | 0 => if low = 0 then highWord vs 0 (.error .outOfBounds) else .ok false
  | i + 1 => if low ≤ i + 1 then highWord vs (i + 1) (highLoop vs low i) else .ok false

/-- The comparison of the words at `i`, or else what comes next. -/
def compareWord (vs ns : List Word) (i : Nat) (next : Except Fault Int) : Except Fault Int :=
  match vs[i]?, ns[i]? with
  | some v, some n => if v > n then .ok 1 else if v < n then .ok (-1) else next
  | _, _ => .error .outOfBounds

/-- `while (true)` from index `i`. -/
def compareLoop (vs ns : List Word) : Nat → Except Fault Int
  | 0 => compareWord vs ns 0 (.ok 0)
  | i + 1 => compareWord vs ns (i + 1) (compareLoop vs ns i)

/-- `Compare(const BigInt &)`. With no words `length - 1` wraps to an index outside every array, as
0 is outside the empty one. -/
def compare (a n : BigInt) : Except Fault Int :=
  if a.length > n.length then
    highLoop a.value n.length (a.length - 1) >>= fun found =>
      if found then .ok 1 else compareLoop a.value n.value (n.length - 1)
  else if n.length > a.length then
    highLoop n.value a.length (n.length - 1) >>= fun found =>
      if found then .ok (-1) else compareLoop a.value n.value (a.length - 1)
  else compareLoop a.value n.value (a.length - 1)

/-- How `Compare` reports an order. -/
def order (x y : Nat) : Int := if x > y then 1 else if x < y then -1 else 0

/-- The higher words decide, then the lower ones. -/
theorem order_words {p x y u v : Nat} (hx : x < p) (hy : y < p) :
    order (x + p * u) (y + p * v) = if u > v then 1 else if u < v then -1 else order x y := by
  unfold order
  rcases Nat.lt_trichotomy u v with h | rfl | h
  · have := Nat.mul_le_mul_left p (Nat.succ_le_of_lt h)
    rw [Nat.mul_succ] at this
    rw [if_neg (by omega), if_pos (by omega), if_neg (by omega), if_pos h]
  · rw [if_neg (Nat.lt_irrefl u), if_neg (Nat.lt_irrefl u)]
    simp only [gt_iff_lt, Nat.add_lt_add_iff_right]
  · have := Nat.mul_le_mul_left p (Nat.succ_le_of_lt h)
    rw [Nat.mul_succ] at this
    rw [if_pos (by omega), if_pos h]

theorem compareWord_eq {vs ns : List Word} {i : Nat} (hv : i < vs.length) (hn : i < ns.length) :
    compareWord vs ns i (.ok (order (val (vs.take i)) (val (ns.take i)))) =
      .ok (order (val (vs.take (i + 1))) (val (ns.take (i + 1)))) := by
  rw [val_take_succ vs hv, val_take_succ ns hn, order_words (val_take_lt vs i) (val_take_lt ns i),
    compareWord, List.getElem?_eq_getElem hv, List.getElem?_eq_getElem hn]
  dsimp only
  simp only [gt_iff_lt, BitVec.lt_def]
  split_ifs <;> rfl

theorem compareLoop_eq {vs ns : List Word} : ∀ {i : Nat}, i < vs.length → i < ns.length →
    compareLoop vs ns i = .ok (order (val (vs.take (i + 1))) (val (ns.take (i + 1))))
  | 0, hv, hn => compareWord_eq hv hn
  | i + 1, hv, hn => by
    rw [compareLoop, compareLoop_eq (Nat.lt_of_succ_lt hv) (Nat.lt_of_succ_lt hn)]
    exact compareWord_eq hv hn

theorem highLoop_eq {vs : List Word} {low : Nat} (hlow : 0 < low) : ∀ {i : Nat}, i < vs.length →
    highLoop vs low i = .ok (decide (2 ^ (32 * low) ≤ val (vs.take (i + 1))))
  | 0, hv => by
    have hlt := val_take_lt vs (0 + 1)
    have hle : 2 ^ (32 * (0 + 1)) ≤ 2 ^ (32 * low) := Nat.pow_le_pow_right Nat.two_pos (by omega)
    rw [highLoop, if_neg hlow.ne', decide_eq_false]
    omega
  | i + 1, hv => by
    rw [highLoop]
    split_ifs with hi
    · rw [highWord, List.getElem?_eq_getElem hv, val_take_succ vs hv]
      dsimp only
      split_ifs with hne
      · have hpos : 0 < vs[i + 1].toNat := Nat.pos_of_ne_zero (mt word_eq_zero.mp hne)
        have hle : 2 ^ (32 * low) ≤ 2 ^ (32 * (i + 1)) :=
          Nat.pow_le_pow_right Nat.two_pos (Nat.mul_le_mul_left 32 hi)
        have := Nat.le_mul_of_pos_right (2 ^ (32 * (i + 1))) hpos
        rw [decide_eq_true]
        omega
      · rw [highLoop_eq hlow (Nat.lt_of_succ_lt hv), not_not.mp hne, word_eq_zero.mpr rfl,
          Nat.mul_zero]
        rfl
    · have hlt := val_take_lt vs (i + 1 + 1)
      have hle : 2 ^ (32 * (i + 1 + 1)) ≤ 2 ^ (32 * low) :=
        Nat.pow_le_pow_right Nat.two_pos (by omega)
      rw [decide_eq_false]
      omega

theorem take_length (a : BigInt) : a.value.take a.length = a.value := List.take_length

theorem high_eq {a : BigInt} {low : Nat} (hlow : 0 < low) (ha : 0 < a.length) :
    highLoop a.value low (a.length - 1) = .ok (decide (2 ^ (32 * low) ≤ a.toNat)) := by
  have hlast : a.length - 1 < a.value.length := Nat.sub_one_lt ha.ne'
  rw [highLoop_eq hlow hlast, Nat.sub_add_cancel ha, take_length, toNat]

/-- **`Compare` compares the numbers.** -/
theorem compare_eq {a n : BigInt} (ha : 0 < a.length) (hn : 0 < n.length) :
    a.compare n = .ok (order a.toNat n.toNat) := by
  have hlow : ∀ {l : Nat}, 0 < l → l ≤ a.length → l ≤ n.length →
      compareLoop a.value n.value (l - 1) =
        .ok (order (val (a.value.take l)) (val (n.value.take l))) := by
    intro l hl hla hln
    rw [compareLoop_eq (Nat.lt_of_lt_of_le (Nat.sub_one_lt hl.ne') hla)
      (Nat.lt_of_lt_of_le (Nat.sub_one_lt hl.ne') hln), Nat.sub_add_cancel hl]
  unfold compare
  split_ifs with hgt hlt
  · rw [high_eq hn ha]
    by_cases hhigh : 2 ^ (32 * n.length) ≤ a.toNat
    · have := n.toNat_lt
      rw [decide_eq_true hhigh, order, if_pos (by omega)]
      rfl
    · rw [decide_eq_false hhigh]
      refine (hlow hn (Nat.le_of_lt hgt) (Nat.le_refl _)).trans ?_
      rw [val_take_of_lt (Nat.lt_of_not_le hhigh), take_length]
      rfl
  · rw [high_eq ha hn]
    by_cases hhigh : 2 ^ (32 * a.length) ≤ n.toNat
    · have := a.toNat_lt
      rw [decide_eq_true hhigh, order, if_neg (by omega), if_pos (by omega)]
      rfl
    · rw [decide_eq_false hhigh]
      refine (hlow ha (Nat.le_refl _) (Nat.le_of_lt hlt)).trans ?_
      rw [val_take_of_lt (Nat.lt_of_not_le hhigh), take_length]
      rfl
  · have heq : a.length = n.length := by omega
    rw [hlow ha (Nat.le_refl _) (Nat.le_of_eq heq), take_length, heq, take_length]
    rfl

/-! ## Shift -/

/-- The loop of `shift`: the shifted words, and the bit shifted out. -/
def shiftLoop : List Word → Nat → List Word × Nat
  | [], bit => ([], bit)
  | v :: vs, bit =>
    let x := v.toNat <<< 1 ||| bit
    let r := shiftLoop vs (x >>> 32)
    (BitVec.ofNat 32 x :: r.1, r.2)

theorem shiftLoop_length : ∀ vs bit, (shiftLoop vs bit).1.length = vs.length
  | [], _ => rfl
  | v :: vs, bit => by
    rw [shiftLoop, List.length_cons, List.length_cons, shiftLoop_length]

/-- `shift`. -/
def shift (a : BigInt) (bit : Nat) : Except Fault BigInt :=
  let r := shiftLoop a.value bit
  if r.2 ≠ 0 then
    .error (.overflow "shift: shifted too many bit positions, overflowed")
  else .ok (a.put r.1 (shiftLoop_length _ _))

theorem shiftLoop_val : ∀ (vs : List Word) {bit : Nat}, bit ≤ 1 →
    val (shiftLoop vs bit).1 + 2 ^ (32 * vs.length) * (shiftLoop vs bit).2 = 2 * val vs + bit
  | [], bit, _ => by
    rw [shiftLoop, List.length_nil, Nat.mul_zero, Nat.pow_zero, val_nil]
    omega
  | v :: vs, bit, hb => by
    have hv := v.isLt
    have hx : v.toNat <<< 1 ||| bit = 2 * v.toNat + bit := by
      rw [← Nat.shiftLeft_add_eq_or_of_lt (by omega), Nat.shiftLeft_eq, Nat.pow_one, Nat.mul_comm]
    have hcarry : (2 * v.toNat + bit) / 2 ^ 32 ≤ 1 := by omega
    have ih := shiftLoop_val vs hcarry
    rw [shiftLoop]
    dsimp only
    rw [hx, Nat.shiftRight_eq_div_pow, List.length_cons, pow_words, val_cons, val_cons,
      BitVec.toNat_ofNat, Nat.mul_assoc]
    omega

theorem shift_ok {a : BigInt} {bit : Nat} (hb : bit ≤ 1)
    (h : 2 * a.toNat + bit < 2 ^ (32 * a.length)) :
    ∃ r, a.shift bit = .ok r ∧ r.length = a.length ∧ r.toNat = 2 * a.toNat + bit := by
  have hval : val (shiftLoop a.value bit).1 + 2 ^ (32 * a.length) * (shiftLoop a.value bit).2 =
      2 * a.toNat + bit := shiftLoop_val a.value hb
  have hout : (shiftLoop a.value bit).2 = 0 := by
    by_contra hne
    have := Nat.le_mul_of_pos_right (2 ^ (32 * a.length)) (Nat.pos_of_ne_zero hne)
    omega
  refine ⟨_, if_neg (not_not.mpr hout), length_put _ _ (shiftLoop_length _ _), ?_⟩
  rw [hout, Nat.mul_zero] at hval
  exact hval

end BigInt

end Quals2017.Godzilla
