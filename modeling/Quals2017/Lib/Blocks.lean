import Mathlib.Logic.Function.Basic
import Quals2017.Lib.ByteMem

/-!
# Blocks in a memory

A memory with blocks that lie apart. What the blocks are is up to a `BlockKind`: how long a block
is, and what its bytes say. `B a = some i` is a block of the description `i` at the address `a`.

`BlockKind.Lay` says that the blocks lie in the memory. The edits of an allocator keep it:

* `Lay.rewrite`: a block with other bytes, and possibly a shorter one.
* `Lay.split`: two blocks in the place of one.
* `Lay.merge`: one block in the place of two that lie side by side.
* `Lay.insert`: a block where there was none.
-/

namespace Quals2017.Lib

open ByteMem Function

/-- A kind of blocks. What holds of a block depends on its bytes only. -/
structure BlockKind (ι : Type) where
  len : ι → Nat
  holds : ByteMem → Addr → ι → Prop
  len_pos : ∀ i, 0 < len i
  holds_congr : ∀ {m m' : ByteMem} {a : Addr} {i : ι}, holds m a i → a.toNat + len i ≤ 2 ^ 32 →
    SameOn m m' a.toNat (len i) → holds m' a i

namespace BlockKind

variable {ι : Type} (K : BlockKind ι)

/-- Two blocks lie apart. -/
def Apart (a : Addr) (i : ι) (b : Addr) (j : ι) : Prop :=
  a.toNat + K.len i ≤ b.toNat ∨ b.toNat + K.len j ≤ a.toNat

/-- The blocks lie in the memory. -/
structure Lay (m : ByteMem) (B : Addr → Option ι) : Prop where
  holds : ∀ {a i}, B a = some i → K.holds m a i
  bound : ∀ {a i}, B a = some i → a.toNat + K.len i ≤ 2 ^ 32
  apart : ∀ {a b i j}, B a = some i → B b = some j → a ≠ b → K.Apart a i b j

variable {K} {m m' : ByteMem} {B B' : Addr → Option ι} {a b : Addr} {i j : ι}

theorem Apart.symm (h : K.Apart a i b j) : K.Apart b j a i := Or.symm h

theorem lay_empty (m : ByteMem) : K.Lay m (fun _ => none) := by
  constructor <;> exact nofun

theorem update_cases (h : update B a (some i) b = some j) :
    (b = a ∧ j = i) ∨ (b ≠ a ∧ B b = some j) := by
  by_cases hba : b = a
  · subst hba
    rw [update_self, Option.some_inj] at h
    exact Or.inl ⟨rfl, h.symm⟩
  · rw [update_of_ne hba] at h
    exact Or.inr ⟨hba, h⟩

theorem update_none_cases (h : update B a none b = some j) : b ≠ a ∧ B b = some j := by
  by_cases hba : b = a
  · subst hba
    rw [update_self] at h
    cases h
  · rw [update_of_ne hba] at h
    exact ⟨hba, h⟩

namespace Lay

/-- **An edit of `[lo, lo + n)`**: the blocks are old ones apart from it, or new ones inside. -/
theorem change (h : K.Lay m B) {lo n : Nat} (hm : OnlyOn m m' lo n) (hn : lo + n ≤ 2 ^ 32)
    (hB : ∀ {a i}, B' a = some i → (B a = some i ∧ (a.toNat + K.len i ≤ lo ∨ lo + n ≤ a.toNat)) ∨
      (lo ≤ a.toNat ∧ a.toNat + K.len i ≤ lo + n ∧ K.holds m' a i))
    (hin : ∀ {a b i j}, B' a = some i → B' b = some j → a ≠ b →
      (lo ≤ a.toNat ∧ a.toNat < lo + n) → (lo ≤ b.toNat ∧ b.toNat < lo + n) → K.Apart a i b j) :
    K.Lay m' B' := by
  refine ⟨fun {a i} ha => ?_, fun {a i} ha => ?_, fun {a b i j} ha hb hne => ?_⟩
  · rcases hB ha with ⟨hold, hapart⟩ | ⟨-, -, hholds⟩
    · exact K.holds_congr (h.holds hold) (h.bound hold) (hm.sameOn hapart)
    · exact hholds
  · rcases hB ha with ⟨hold, -⟩ | ⟨-, hle, -⟩
    · exact h.bound hold
    · exact Nat.le_trans hle hn
  · have hi := K.len_pos i
    have hj := K.len_pos j
    rcases hB ha with ⟨hold, hapart⟩ | ⟨hlo, hhi, -⟩ <;>
      rcases hB hb with ⟨hold', hapart'⟩ | ⟨hlo', hhi', -⟩
    · exact h.apart hold hold' hne
    · unfold Apart
      omega
    · unfold Apart
      omega
    · exact hin ha hb hne ⟨hlo, by omega⟩ ⟨hlo', by omega⟩

/-- An edit behind an address that leaves no block there but the one at the address. -/
theorem change_one (h : K.Lay m B) {n : Nat} (hm : OnlyOn m m' a.toNat n)
    (hn : a.toNat + n ≤ 2 ^ 32)
    (hB : ∀ {b j}, B' b = some j → (b = a ∧ K.len j ≤ n ∧ K.holds m' a j) ∨
      (B b = some j ∧ (b.toNat + K.len j ≤ a.toNat ∨ a.toNat + n ≤ b.toNat))) : K.Lay m' B' := by
  have hself : ∀ {b j}, B' b = some j → a.toNat ≤ b.toNat ∧ b.toNat < a.toNat + n → b = a := by
    rintro b j hb ⟨hlo, hhi⟩
    have hj := K.len_pos j
    rcases hB hb with ⟨heq, -⟩ | ⟨-, hlt | hlt⟩
    · exact heq
    · omega
    · omega
  refine h.change hm hn (fun {b j} hb => ?_) (fun hb hc hne hb' hc' => ?_)
  · rcases hB hb with ⟨rfl, hle, hj⟩ | hold
    · exact Or.inr ⟨Nat.le_refl _, by omega, hj⟩
    · exact Or.inl hold
  · exact absurd ((hself hb hb').trans (hself hc hc').symm) hne

/-- A block that starts inside of another is that block. -/
theorem eq_of_inside (h : K.Lay m B) (ha : B a = some i) (hb : B b = some j)
    (hlo : a.toNat ≤ b.toNat) (hhi : b.toNat < a.toNat + K.len i) : b = a := by
  by_contra hne
  have hj := K.len_pos j
  rcases h.apart hb ha hne with hlt | hlt <;> omega

/-- **A block with other bytes.** -/
theorem rewrite (h : K.Lay m B) (ha : B a = some i) (hm : OnlyOn m m' a.toNat (K.len i))
    (hj : K.holds m' a j) (hle : K.len j ≤ K.len i) : K.Lay m' (update B a (some j)) := by
  refine h.change_one hm (h.bound ha) fun {b k} hb => ?_
  rcases update_cases hb with ⟨rfl, rfl⟩ | ⟨hne, hb⟩
  · exact Or.inl ⟨rfl, hle, hj⟩
  · exact Or.inr ⟨hb, h.apart hb ha hne⟩

/-- **A block where there was none.** -/
theorem insert {n : Nat} (h : K.Lay m B) (hm : OnlyOn m m' a.toNat n)
    (hn : a.toNat + n ≤ 2 ^ 32) (hi : K.holds m' a i) (hle : K.len i ≤ n)
    (hfree : ∀ {b j}, B b = some j → b.toNat + K.len j ≤ a.toNat ∨ a.toNat + n ≤ b.toNat) :
    K.Lay m' (update B a (some i)) := by
  refine h.change_one hm hn fun {b k} hb => ?_
  rcases update_cases hb with ⟨rfl, rfl⟩ | ⟨-, hb⟩
  · exact Or.inl ⟨rfl, hle, hi⟩
  · exact Or.inr ⟨hb, hfree hb⟩

/-- **One block in the place of two that lie side by side.** -/
theorem merge {k : ι} (h : K.Lay m B) (ha : B a = some i) (hb : B b = some j)
    (hab : a.toNat + K.len i = b.toNat) (hm : OnlyOn m m' a.toNat (K.len i + K.len j))
    (hk : K.holds m' a k) (hle : K.len k ≤ K.len i + K.len j) :
    K.Lay m' (update (update B b none) a (some k)) := by
  have hbound := h.bound hb
  refine h.change_one hm (by omega) fun {c l} hc => ?_
  rcases update_cases hc with ⟨rfl, rfl⟩ | ⟨hca, hc⟩
  · exact Or.inl ⟨rfl, hle, hk⟩
  · obtain ⟨hcb, hc⟩ := update_none_cases hc
    have hl := K.len_pos l
    have h₁ := h.apart hc ha hca
    have h₂ := h.apart hc hb hcb
    unfold Apart at h₁ h₂
    exact Or.inr ⟨hc, by omega⟩

/-- **Two blocks in the place of one.** -/
theorem split {k : ι} (h : K.Lay m B) (ha : B a = some k)
    (hm : OnlyOn m m' a.toNat (K.len k)) (hi : K.holds m' a i) (hj : K.holds m' b j)
    (hab : a.toNat + K.len i ≤ b.toNat) (hb : b.toNat + K.len j ≤ a.toNat + K.len k) :
    K.Lay m' (update (update B a (some i)) b (some j)) := by
  have hposi := K.len_pos i
  have hposj := K.len_pos j
  have hcases : ∀ {c l}, update (update B a (some i)) b (some j) c = some l →
      (c = b ∧ l = j) ∨ (c = a ∧ l = i) ∨ (c ≠ a ∧ B c = some l) := by
    intro c l hc
    rcases update_cases hc with hnew | ⟨-, hc⟩
    · exact Or.inl hnew
    · exact Or.inr (update_cases hc)
  refine h.change hm (h.bound ha) (fun {c l} hc => ?_) (fun {c d l o} hc hd hne hc' hd' => ?_)
  · rcases hcases hc with ⟨rfl, rfl⟩ | ⟨rfl, rfl⟩ | ⟨hca, hc⟩
    · exact Or.inr ⟨by omega, hb, hj⟩
    · exact Or.inr ⟨Nat.le_refl _, by omega, hi⟩
    · exact Or.inl ⟨hc, h.apart hc ha hca⟩
  · have hnew : ∀ {c l}, update (update B a (some i)) b (some j) c = some l →
        a.toNat ≤ c.toNat ∧ c.toNat < a.toNat + K.len k → (c = b ∧ l = j) ∨ (c = a ∧ l = i) := by
      rintro c l hc ⟨hlo, hhi⟩
      rcases hcases hc with hnew | hnew | ⟨hca, hc⟩
      · exact Or.inl hnew
      · exact Or.inr hnew
      · exact absurd (h.eq_of_inside ha hc hlo hhi) hca
    rcases hnew hc hc' with ⟨rfl, rfl⟩ | ⟨rfl, rfl⟩ <;>
      rcases hnew hd hd' with ⟨rfl, rfl⟩ | ⟨rfl, rfl⟩
    · exact absurd rfl hne
    · exact Or.inr hab
    · exact Or.inl hab
    · exact absurd rfl hne

end Lay

end BlockKind

end Quals2017.Lib
