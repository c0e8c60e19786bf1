import Mathlib.Algebra.Order.Ring.Nat
import Mathlib.Logic.Function.Basic

/-!
# Bytes at 32-bit addresses

A memory of bytes. `load` and `store` are those of a little-endian machine for words of four bytes,
at any address, `fill` is `memset` and `write` is `memcpy`.

* `SameOn m m' lo n`: the memories agree on `[lo, lo + n)`. A load only looks at its four bytes
  (`load_congr`).
* `OnlyOn m m' lo n`: they agree everywhere else. `onlyOn_store`, `onlyOn_fill` and `onlyOn_write`
  say where these write, and `OnlyOn.sameOn` what is apart from them.
-/

namespace Quals2017.Lib

/-- An address, and a word. -/
abbrev Addr := BitVec 32

/-- A byte at every address. -/
abbrev ByteMem := Addr → BitVec 8

namespace ByteMem

/-- The word at an address. -/
def load (m : ByteMem) (a : Addr) : Addr :=
  (m (a + 3) ++ (m (a + 2) ++ (m (a + 1) ++ m a)) : BitVec (8 + (8 + (8 + 8))))

/-- A word stored at an address. -/
def store (m : ByteMem) (a v : Addr) : ByteMem := fun b =>
  if b = a then v.extractLsb' 0 8
  else if b = a + 1 then v.extractLsb' 8 8
  else if b = a + 2 then v.extractLsb' 16 8
  else if b = a + 3 then v.extractLsb' 24 8
  else m b

/-- `n` bytes set from an address on. -/
def fill (m : ByteMem) (a : Addr) (n : Nat) (x : BitVec 8) : ByteMem := fun b =>
  if (b - a).toNat < n then x else m b

/-- Bytes written from an address on. -/
def write (m : ByteMem) (a : Addr) (l : List (BitVec 8)) : ByteMem := fun b =>
  if (b - a).toNat < l.length then l.getD (b - a).toNat 0 else m b

/-- The memories agree on `[lo, lo + n)`. -/
def SameOn (m m' : ByteMem) (lo n : Nat) : Prop :=
  ∀ b : Addr, lo ≤ b.toNat → b.toNat < lo + n → m' b = m b

/-- The memories agree outside of `[lo, lo + n)`. -/
def OnlyOn (m m' : ByteMem) (lo n : Nat) : Prop :=
  ∀ b : Addr, b.toNat < lo ∨ lo + n ≤ b.toNat → m' b = m b

variable {m m' m'' : ByteMem}

theorem append_extractLsb' (v : Addr) :
    (v.extractLsb' 24 8 ++ (v.extractLsb' 16 8 ++ (v.extractLsb' 8 8 ++ v.extractLsb' 0 8)) :
      BitVec (8 + (8 + (8 + 8)))) = v := by
  ext i hi
  simp only [BitVec.getElem_append, BitVec.getElem_extractLsb', Nat.zero_add]
  rw [← BitVec.getLsbD_eq_getElem hi]
  split
  · split
    · split
      · rfl
      · exact congrArg _ (by omega)
    · exact congrArg _ (by omega)
  · exact congrArg _ (by omega)

theorem load_store_self (m : ByteMem) (a v : Addr) : (m.store a v).load a = v := by
  have h₁ : ¬ a + 1 = a := by simp
  have h₂ : ¬ a + 2 = a := by simp
  have h₃ : ¬ a + 3 = a := by simp
  have h₂₁ : ¬ a + 2 = a + 1 := by bv_omega
  have h₃₁ : ¬ a + 3 = a + 1 := by bv_omega
  have h₃₂ : ¬ a + 3 = a + 2 := by bv_omega
  simp only [load, store, if_pos, if_neg h₁, if_neg h₂, if_neg h₃, if_neg h₂₁, if_neg h₃₁,
    if_neg h₃₂]
  exact append_extractLsb' v

/-- The four addresses of a word. -/
theorem toNat_offsets {a : Addr} (h : a.toNat + 4 ≤ 2 ^ 32) : (a + 1).toNat = a.toNat + 1 ∧
    (a + 2).toNat = a.toNat + 2 ∧ (a + 3).toNat = a.toNat + 3 := by
  bv_omega

/-- An address at an offset. -/
theorem toNat_add_ofNat (a : Addr) {k : Nat} (hk : a.toNat + k < 2 ^ 32) :
    (a + BitVec.ofNat 32 k).toNat = a.toNat + k := by
  rw [BitVec.toNat_add, BitVec.toNat_ofNat, Nat.mod_eq_of_lt (a := k) (by omega)]
  exact Nat.mod_eq_of_lt hk

/-- A load only looks at its four bytes. -/
theorem load_congr {a : Addr} (h : SameOn m m' a.toNat 4) (ha : a.toNat + 4 ≤ 2 ^ 32) :
    m'.load a = m.load a := by
  obtain ⟨h₁, h₂, h₃⟩ := toNat_offsets ha
  unfold load
  rw [h a (by omega) (by omega), h (a + 1) (by omega) (by omega), h (a + 2) (by omega) (by omega),
    h (a + 3) (by omega) (by omega)]

theorem onlyOn_store (m : ByteMem) {a : Addr} (v : Addr) (ha : a.toNat + 4 ≤ 2 ^ 32) :
    OnlyOn m (m.store a v) a.toNat 4 := by
  obtain ⟨h₁, h₂, h₃⟩ := toNat_offsets ha
  intro b hb
  have hne : ∀ c : Addr, b.toNat ≠ c.toNat → ¬ b = c := fun c hc h => hc (congrArg _ h)
  unfold store
  rw [if_neg (hne a (by omega)), if_neg (hne _ (by omega)), if_neg (hne _ (by omega)),
    if_neg (hne _ (by omega))]

theorem onlyOn_fill (m : ByteMem) {a : Addr} {n : Nat} (x : BitVec 8) (ha : a.toNat + n ≤ 2 ^ 32) :
    OnlyOn m (m.fill a n x) a.toNat n := by
  intro b hb
  have hlt := b.isLt
  have hb' : ¬ (b - a).toNat < n := by
    rw [BitVec.toNat_sub]
    omega
  exact if_neg hb'

theorem fill_of_mem {a b : Addr} {n : Nat} {x : BitVec 8} (h : a.toNat ≤ b.toNat)
    (hb : b.toNat < a.toNat + n) : m.fill a n x b = x := by
  have hb' : (b - a).toNat < n := by
    rw [BitVec.toNat_sub]
    omega
  exact if_pos hb'

theorem onlyOn_write (m : ByteMem) {a : Addr} (l : List (BitVec 8))
    (ha : a.toNat + l.length ≤ 2 ^ 32) : OnlyOn m (m.write a l) a.toNat l.length := by
  intro b hb
  have hlt := b.isLt
  have hb' : ¬ (b - a).toNat < l.length := by
    rw [BitVec.toNat_sub]
    omega
  exact if_neg hb'

theorem onlyOn_update (m : ByteMem) (a : Addr) (x : BitVec 8) :
    OnlyOn m (Function.update m a x) a.toNat 1 := by
  intro b hb
  refine Function.update_of_ne ?_ _ _
  rintro rfl
  omega

/-- A word of zeros. -/
theorem load_fill {a b : Addr} {n : Nat} (hlo : a.toNat ≤ b.toNat) (hhi : b.toNat + 4 ≤ a.toNat + n)
    (hb : b.toNat + 4 ≤ 2 ^ 32) : (m.fill a n 0).load b = 0 := by
  obtain ⟨h₁, h₂, h₃⟩ := toNat_offsets hb
  unfold load
  rw [fill_of_mem hlo (by omega), fill_of_mem (b := b + 1) (by omega) (by omega),
    fill_of_mem (b := b + 2) (by omega) (by omega), fill_of_mem (b := b + 3) (by omega) (by omega)]
  rfl

/-- A byte that was written. -/
theorem write_add {a : Addr} {l : List (BitVec 8)} {k : Nat} (hk : k < l.length)
    (ha : k < 2 ^ 32) : m.write a l (a + BitVec.ofNat 32 k) = l.getD k 0 := by
  have hsub : (a + BitVec.ofNat 32 k - a).toNat = k := by
    rw [BitVec.add_comm, BitVec.add_sub_cancel, BitVec.toNat_ofNat, Nat.mod_eq_of_lt ha]
  rw [write, hsub, if_pos hk]

/-- Where a byte behind others is. -/
theorem eq_add_iff {a b : Addr} {k : Nat} (hk : k < 2 ^ 32) :
    b = a + BitVec.ofNat 32 k ↔ (b - a).toNat = k := by
  rw [← BitVec.toNat_inj, BitVec.toNat_add, BitVec.toNat_sub, BitVec.toNat_ofNat]
  omega

theorem getD_concat {l : List (BitVec 8)} {x : BitVec 8} {k : Nat} (hk : k < l.length) :
    (l ++ [x]).getD k 0 = l.getD k 0 := by
  rw [List.getD_eq_getElem?_getD, List.getElem?_append_left hk, List.getD_eq_getElem?_getD]

theorem getD_concat_length (l : List (BitVec 8)) (x : BitVec 8) :
    (l ++ [x]).getD l.length 0 = x := by
  rw [List.getD_eq_getElem?_getD, List.getElem?_concat_length]
  rfl

/-- A byte written before the ones in front of it, or behind them. -/
theorem write_update (m : ByteMem) (a : Addr) {l : List (BitVec 8)} (x : BitVec 8)
    (h : l.length < 2 ^ 32) :
    write (Function.update m (a + BitVec.ofNat 32 l.length) x) a l = m.write a (l ++ [x]) := by
  funext b
  simp only [write, Function.update_apply, eq_add_iff h, List.length_append, List.length_singleton]
  rcases Nat.lt_trichotomy (b - a).toNat l.length with hlt | heq | hgt
  · rw [if_pos hlt, if_pos (by omega), getD_concat hlt]
  · rw [if_neg (by omega), if_pos heq, if_pos (by omega), heq, getD_concat_length]
  · rw [if_neg (by omega), if_neg (by omega), if_neg (by omega)]

@[inherit_doc write_update]
theorem update_write (m : ByteMem) (a : Addr) {l : List (BitVec 8)} (x : BitVec 8)
    (h : l.length < 2 ^ 32) :
    Function.update (m.write a l) (a + BitVec.ofNat 32 l.length) x = m.write a (l ++ [x]) := by
  rw [← write_update m a x h]
  funext b
  simp only [write, Function.update_apply, eq_add_iff h]
  rcases Nat.lt_trichotomy (b - a).toNat l.length with hlt | heq | hgt
  · rw [if_neg (by omega), if_pos hlt, if_pos hlt]
  · rw [if_pos heq, if_neg (by omega), if_pos heq]
  · rw [if_neg (by omega), if_neg (by omega), if_neg (by omega), if_neg (by omega)]

namespace SameOn

variable {lo n : Nat}

theorem mono (h : SameOn m m' lo n) {lo' n' : Nat} (hlo : lo ≤ lo') (hhi : lo' + n' ≤ lo + n) :
    SameOn m m' lo' n' :=
  fun b hb hb' => h b (by omega) (by omega)

theorem refl (m : ByteMem) (lo n : Nat) : SameOn m m lo n := fun _ _ _ => rfl

theorem trans (h : SameOn m m' lo n) (h' : SameOn m' m'' lo n) : SameOn m m'' lo n :=
  fun b hlo hhi => (h' b hlo hhi).trans (h b hlo hhi)

/-- A load of bytes that stay. -/
theorem load_eq (h : SameOn m m' lo n) {a : Addr} (hlo : lo ≤ a.toNat)
    (hhi : a.toNat + 4 ≤ lo + n) (ha : a.toNat + 4 ≤ 2 ^ 32) : m'.load a = m.load a :=
  load_congr (h.mono hlo hhi) ha

end SameOn

namespace OnlyOn

variable {lo n : Nat}

/-- What is apart from the bytes that change does not. -/
theorem sameOn (h : OnlyOn m m' lo n) {lo' n' : Nat} (hapart : lo' + n' ≤ lo ∨ lo + n ≤ lo') :
    SameOn m m' lo' n' := by
  intro b hlo hhi
  exact h b (by omega)

theorem mono (h : OnlyOn m m' lo n) {lo' n' : Nat} (hlo : lo' ≤ lo) (hhi : lo + n ≤ lo' + n') :
    OnlyOn m m' lo' n' :=
  fun b hb => h b (by omega)

theorem trans (h : OnlyOn m m' lo n) (h' : OnlyOn m' m'' lo n) : OnlyOn m m'' lo n :=
  fun b hb => (h' b hb).trans (h b hb)

theorem refl (m : ByteMem) (lo n : Nat) : OnlyOn m m lo n := fun _ _ => rfl

/-- A load that is apart from the bytes that change. -/
theorem load_eq (h : OnlyOn m m' lo n) {a : Addr} (ha : a.toNat + 4 ≤ 2 ^ 32)
    (hapart : a.toNat + 4 ≤ lo ∨ lo + n ≤ a.toNat) : m'.load a = m.load a :=
  load_congr (h.sameOn hapart) ha

end OnlyOn

/-- A load that is apart from a store. -/
theorem load_store_ne {a b : Addr} (v : Addr) (ha : a.toNat + 4 ≤ 2 ^ 32)
    (hb : b.toNat + 4 ≤ 2 ^ 32) (hapart : b.toNat + 4 ≤ a.toNat ∨ a.toNat + 4 ≤ b.toNat) :
    (m.store a v).load b = m.load b :=
  (onlyOn_store m v ha).load_eq hb hapart

end ByteMem

end Quals2017.Lib
