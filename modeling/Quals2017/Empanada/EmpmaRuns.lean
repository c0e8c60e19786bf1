import Quals2017.Empanada.Empma
import Mathlib.Data.List.Nodup

/-!
# Runs of the message allocator (`empanada/EMPMA.h:53-133`)

The pages lie one behind the other up to the frontier, from where on the region is zero. `Laid` says
so. A request that `Fits` moves the frontier or hands out a page again.

* `alloc_fits`, `free_held`, `laid_write`: every step keeps the pages laid, and what is held stays.
* **`reaches_sound`**: in every run whose requests fit, every state is sound.
* `alloc_breaks`: a request for one byte does not fit, and its block is on the next header.
-/

namespace Quals2017.Empanada

open Quals2017.Lib Quals2017.Lib.ByteMem Function

/-! ## Pages as blocks -/

/-- A page: its flag and its size. -/
structure Page where
  used : Bool
  size : Addr
  small : size.toNat < 2 ^ 31

namespace Page

/-- The header of a page. -/
def Holds (m : ByteMem) (p : Addr) (i : Page) : Prop :=
  bUsed m p = i.used ∧ sizeOf m p = i.size

/-- The kind of the pages. -/
def kind : BlockKind Page where
  len i := 12 + i.size.toNat
  holds := Holds
  len_pos _ := by omega
  holds_congr := by
    rintro m m' p i ⟨hused, hsize⟩ hp hsame
    have hoff : (p + 4).toNat = p.toNat + 4 := by bv_omega
    refine ⟨?_, ?_⟩
    · rw [← hused, bUsed, bUsed, hsame p (by omega) (by omega)]
    · rw [← hsize, sizeOf, sizeOf]
      exact hsame.load_eq (by omega) (by omega) (by omega)

end Page

variable {r : Region} {m m' : ByteMem} {B : Addr → Option Page} {e p a : Addr} {i j : Page}
  {w : World}

theorem bUsed_setUsed (m : ByteMem) (p : Addr) (used : Bool) : bUsed (setUsed m p used) p = used := by
  unfold bUsed setUsed
  rw [update_self]
  cases used <;> rfl

theorem onlyOn_setUsed (m : ByteMem) (p : Addr) (used : Bool) :
    OnlyOn m (setUsed m p used) p.toNat 1 :=
  onlyOn_update m p _

theorem pageBehind_toNat {p size : Addr} (hdvd : 12 ∣ size.toNat)
    (h : p.toNat + 12 + size.toNat < 2 ^ 32) :
    (pageBehind p size).toNat = p.toNat + 12 + size.toNat := by
  have htwelve : (12 : Addr).toNat = 12 := rfl
  have hdiv : (12 * (size / 12)).toNat = size.toNat := by
    rw [BitVec.toNat_mul, BitVec.toNat_udiv, htwelve, Nat.mul_div_cancel' hdvd]
    exact Nat.mod_eq_of_lt size.isLt
  unfold pageBehind
  generalize 12 * (size / 12) = words at hdiv ⊢
  bv_omega

theorem toInt_of_small {x : Addr} (h : x.toNat < 2 ^ 31) : x.toInt = x.toNat := by
  rw [BitVec.toInt_eq_toNat_of_lt]
  omega

/-! ## The invariant -/

/-- The pages, one behind the other up to the frontier `e`. -/
structure Laid (r : Region) (h : Heap) (B : Addr → Option Page) (e : Addr) : Prop where
  lay : Page.kind.Lay h.mem B
  table : ∀ p ∈ h.pageTable, p = e ∨ ∃ i, B p = some i
  known : ∀ {p i}, B p = some i → p ∈ h.pageTable
  frontier : e ∈ h.pageTable
  range : r.start.toNat ≤ e.toNat ∧ e.toNat ≤ r.finish
  inside : ∀ {p i}, B p = some i → r.start.toNat ≤ p.toNat ∧ p.toNat + (12 + i.size.toNat) ≤ e.toNat
  behind : ∀ {p i}, B p = some i → i.size = 0 → p + 12 = e ∨ ∃ j, B (p + 12) = some j
  zero : ∀ a : Addr, e.toNat ≤ a.toNat → a.toNat < r.finish → h.mem a = 0

/-- The blocks that are held are those of used pages. -/
structure Held (B : Addr → Option Page) (live : List (Addr × Addr)) : Prop where
  page : ∀ b ∈ live, ∃ p i, b.1 = p + 12 ∧ B p = some i ∧ i.used = true ∧ b.2.toNat ≤ i.size.toNat
  nodup : (live.map Prod.fst).Nodup

namespace Laid

variable {h : Heap}

theorem bound (hl : Laid r h B e) (hp : B p = some i) : p.toNat + (12 + i.size.toNat) < 2 ^ 32 := by
  have hin := (hl.inside hp).2
  have hout := hl.range.2
  have hfin := r.bound
  unfold Region.finish at hout
  omega

/-- The page of a block. -/
theorem block_toNat (hl : Laid r h B e) (hp : B p = some i) : (p + 12).toNat = p.toNat + 12 := by
  have hbound := hl.bound hp
  bv_omega

theorem frontier_ne (hl : Laid r h B e) (hp : B p = some i) : p ≠ e := by
  rintro rfl
  have hin := (hl.inside hp).2
  omega

/-- The header at the frontier is that of a new page. -/
theorem sizeOf_frontier (hl : Laid r h B e) (he : e.toNat + 12 ≤ r.finish) :
    sizeOf h.mem e = 0 := by
  have hfin := r.bound
  have hoff : (e + 4).toNat = e.toNat + 4 := by
    unfold Region.finish at he
    bv_omega
  obtain ⟨h₁, h₂, h₃⟩ := toNat_offsets (a := e + 4) (by unfold Region.finish at he; omega)
  unfold sizeOf load
  rw [hl.zero (e + 4) (by omega) (by omega), hl.zero (e + 4 + 1) (by omega) (by omega),
    hl.zero (e + 4 + 2) (by omega) (by omega), hl.zero (e + 4 + 3) (by omega) (by omega)]
  rfl

/-- A page with another flag, and other bytes in its block. -/
theorem rewrite (hl : Laid r h B e) (hp : B p = some i)
    (hm : OnlyOn h.mem m' p.toNat (12 + i.size.toNat)) (hj : Page.Holds m' p j)
    (hsize : j.size = i.size) {table : List Addr} (hsub : h.pageTable ⊆ table)
    (hnew : ∀ q ∈ table, q ∈ h.pageTable ∨ (i.size = 0 ∧ q = p + 12)) :
    Laid r ⟨m', table⟩ (update B p (some j)) e := by
  have hlen : Page.kind.len j ≤ Page.kind.len i := Nat.le_of_eq (by
    show 12 + j.size.toNat = 12 + i.size.toNat
    rw [hsize])
  have hold : ∀ {q}, (∃ k, B q = some k) → ∃ k, update B p (some j) q = some k := by
    rintro q ⟨k, hk⟩
    by_cases hqp : q = p
    · exact ⟨j, by rw [hqp, update_self]⟩
    · exact ⟨k, by rw [update_of_ne hqp]; exact hk⟩
  refine ⟨hl.lay.rewrite hp hm hj hlen, fun q hq => ?_, fun {q k} hq => ?_,
    hsub hl.frontier, hl.range, fun {q k} hq => ?_, fun {q k} hq hzero => ?_, fun a hlo hhi => ?_⟩
  · rcases hnew q hq with hq | ⟨hzero, rfl⟩
    · exact (hl.table q hq).imp_right hold
    · exact (hl.behind hp hzero).imp_right hold
  · rcases BlockKind.update_cases hq with ⟨rfl, rfl⟩ | ⟨-, hq⟩
    · exact hsub (hl.known hp)
    · exact hsub (hl.known hq)
  · rcases BlockKind.update_cases hq with ⟨rfl, rfl⟩ | ⟨-, hq⟩
    · rw [hsize]
      exact hl.inside hp
    · exact hl.inside hq
  · rcases BlockKind.update_cases hq with ⟨rfl, rfl⟩ | ⟨-, hq⟩
    · exact (hl.behind hp (hsize.symm.trans hzero)).imp_right hold
    · exact (hl.behind hq hzero).imp_right hold
  · have hin := (hl.inside hp).2
    show m' a = 0
    rw [hm a (Or.inr (by omega))]
    exact hl.zero a hlo hhi

/-- A new page at the frontier. -/
theorem push (hl : Laid r h B e) {size : Addr} (hdvd : 12 ∣ size.toNat)
    (hsmall : size.toNat < 2 ^ 31) (hroom : e.toNat + 12 + size.toNat ≤ r.finish)
    (hm : OnlyOn h.mem m' e.toNat 12) (hj : Page.Holds m' e ⟨true, size, hsmall⟩) :
    Laid r ⟨m', h.pageTable ++ [pageBehind e size]⟩ (update B e (some ⟨true, size, hsmall⟩))
      (pageBehind e size) := by
  have hfin := r.bound
  have hnext : (pageBehind e size).toNat = e.toNat + 12 + size.toNat :=
    pageBehind_toNat hdvd (by unfold Region.finish at hroom; omega)
  have hpage : ∃ k, update B e (some (⟨true, size, hsmall⟩ : Page)) e = some k :=
    ⟨_, update_self _ _ _⟩
  have hold : ∀ {q}, (∃ k, B q = some k) → ∃ k, update B e (some ⟨true, size, hsmall⟩) q = some k := by
    rintro q ⟨k, hk⟩
    exact ⟨k, by rw [update_of_ne (hl.frontier_ne hk)]; exact hk⟩
  have hrange := hl.range
  have hwide : OnlyOn h.mem m' e.toNat (12 + size.toNat) := hm.mono (Nat.le_refl _) (by omega)
  have hlay : Page.kind.Lay m' (update B e (some ⟨true, size, hsmall⟩)) :=
    hl.lay.insert hwide (by unfold Region.finish at hroom; omega) hj (Nat.le_refl _)
      fun {b k} hb => Or.inl (hl.inside hb).2
  refine ⟨hlay, fun q hq => ?_, fun {q k} hq => List.mem_append_left _ ?_,
    List.mem_append_right _ (List.mem_singleton_self _), ⟨by omega, by omega⟩, fun {q k} hq => ?_,
    fun {q k} hq hzero => ?_, fun a hlo hhi => ?_⟩
  · rcases List.mem_append.mp hq with hq | hq
    · rcases hl.table q hq with rfl | hq
      · exact Or.inr hpage
      · exact Or.inr (hold hq)
    · exact Or.inl (List.mem_singleton.mp hq)
  · rcases BlockKind.update_cases hq with ⟨rfl, rfl⟩ | ⟨-, hq⟩
    · exact hl.frontier
    · exact hl.known hq
  · rcases BlockKind.update_cases hq with ⟨rfl, rfl⟩ | ⟨-, hq⟩
    · exact ⟨hrange.1, by show q.toNat + (12 + size.toNat) ≤ _; omega⟩
    · have hin := hl.inside hq
      exact ⟨hin.1, by omega⟩
  · rcases BlockKind.update_cases hq with ⟨rfl, rfl⟩ | ⟨-, hq⟩
    · have hzero : size = 0 := hzero
      subst hzero
      refine Or.inl (BitVec.eq_of_toNat_eq ?_)
      rw [hnext]
      have : (q + 12).toNat = q.toNat + 12 := by unfold Region.finish at hroom; bv_omega
      exact this
    · rcases hl.behind hq hzero with heq | hq
      · exact Or.inr (heq ▸ hpage)
      · exact Or.inr (hold hq)
  · show m' a = 0
    rw [hm a (Or.inr (by omega))]
    exact hl.zero a (by omega) hhi

end Laid

/-! ## What the calls write -/

variable {h : Heap} {size : Addr} {live : List (Addr × Addr)}

theorem takeNew_holds (hp : p.toNat + 12 ≤ 2 ^ 32) (hsmall : size.toNat < 2 ^ 31) :
    OnlyOn h.mem (takeNew h p size).mem p.toNat 12 ∧
      Page.Holds (takeNew h p size).mem p ⟨true, size, hsmall⟩ := by
  have h4 : (p + 4).toNat = p.toNat + 4 := by bv_omega
  have h8 : (p + 8).toNat = p.toNat + 8 := by bv_omega
  have hflag := onlyOn_setUsed h.mem p true
  have hsize := onlyOn_store (setUsed h.mem p true) (a := p + 4) size (by omega)
  have hnext := onlyOn_store ((setUsed h.mem p true).store (p + 4) size) (a := p + 8)
    (pageBehind p size) (by omega)
  refine ⟨((hflag.mono (by omega) (by omega)).trans (hsize.mono (by omega) (by omega))).trans
    (hnext.mono (by omega) (by omega)), ?_, ?_⟩
  · have hbyte : (takeNew h p size).mem p = setUsed h.mem p true p :=
      (hnext p (by omega)).trans (hsize p (by omega))
    rw [bUsed, hbyte]
    exact bUsed_setUsed h.mem p true
  · show (takeNew h p size).mem.load (p + 4) = size
    unfold takeNew
    rw [hnext.load_eq (by omega) (by omega), load_store_self]

theorem takeAgain_holds (size : Addr) (hp : p.toNat + (12 + size.toNat) < 2 ^ 32)
    (hi : Page.Holds h.mem p i) :
    OnlyOn h.mem (takeAgain h p size).mem p.toNat (12 + size.toNat) ∧
      Page.Holds (takeAgain h p size).mem p { i with used := true } := by
  have h4 : (p + 4).toNat = p.toNat + 4 := by bv_omega
  have h12 : (p + 12).toNat = p.toNat + 12 := by bv_omega
  have hfill := onlyOn_fill h.mem (a := p + 12) (n := size.toNat) 0 (by omega)
  have hflag := onlyOn_setUsed (h.mem.fill (p + 12) size.toNat 0) p true
  refine ⟨(hfill.mono (by omega) (by omega)).trans (hflag.mono (by omega) (by omega)),
    bUsed_setUsed _ p true, ?_⟩
  show (takeAgain h p size).mem.load (p + 4) = i.size
  unfold takeAgain
  rw [hflag.load_eq (by omega) (by omega), hfill.load_eq (by omega) (by omega)]
  exact hi.2

theorem setUsed_holds (hp : p.toNat + 12 ≤ 2 ^ 32) (hi : Page.Holds m p i) (used : Bool) :
    Page.Holds (setUsed m p used) p { i with used := used } := by
  have h4 : (p + 4).toNat = p.toNat + 4 := by bv_omega
  refine ⟨bUsed_setUsed m p used, ?_⟩
  show (setUsed m p used).load (p + 4) = i.size
  rw [(onlyOn_setUsed m p used).load_eq (by omega) (by omega)]
  exact hi.2

/-! ## What the client holds -/

/-- The block of a page that was not in use. -/
theorem Held.cons (hh : Held B live) (hfree : ∀ i, B p = some i → i.used = false)
    (hj : j.used = true) (hsize : size.toNat ≤ j.size.toNat) :
    Held (update B p (some j)) ((p + 12, size) :: live) := by
  have hne : ∀ b ∈ live, b.1 ≠ p + 12 := by
    intro b hb heq
    obtain ⟨q, i, hq, hi, hused, -⟩ := hh.page b hb
    obtain rfl : q = p := (BitVec.add_left_inj 12).mp (hq.symm.trans heq)
    rw [hfree i hi] at hused
    cases hused
  refine ⟨fun b hb => ?_, ?_⟩
  · rcases List.mem_cons.mp hb with rfl | hb
    · exact ⟨p, j, rfl, update_self _ _ _, hj, hsize⟩
    · obtain ⟨q, i, hq, hi, hused, hle⟩ := hh.page b hb
      have hqp : q ≠ p := fun heq => hne b hb (heq ▸ hq)
      exact ⟨q, i, hq, (update_of_ne hqp _ _).trans hi, hused, hle⟩
  · refine List.nodup_cons.mpr ⟨fun hmem => ?_, hh.nodup⟩
    obtain ⟨b, hb, heq⟩ := List.mem_map.mp hmem
    exact hne b hb heq

/-- A block that is given back. -/
theorem Held.erase (hh : Held B live) (hb : (p + 12, size) ∈ live) :
    Held (update B p (some j)) (live.erase (p + 12, size)) := by
  have hnd : live.Nodup := List.Nodup.of_map _ hh.nodup
  refine ⟨fun c hc => ?_, hh.nodup.sublist (List.erase_sublist.map _)⟩
  obtain ⟨hne, hc⟩ := hnd.mem_erase_iff.mp hc
  obtain ⟨q, i, hq, hi, hused, hle⟩ := hh.page c hc
  have hqp : q ≠ p := fun heq =>
    hne (List.inj_on_of_nodup_map hh.nodup hc hb (hq.trans (congrArg (· + 12) heq)))
  exact ⟨q, i, hq, (update_of_ne hqp _ _).trans hi, hused, hle⟩

/-! ## What stays -/

/-- The bytes of the blocks that are held stay. -/
def Kept (m m' : ByteMem) (live : List (Addr × Addr)) : Prop :=
  ∀ b ∈ live, SameOn m m' b.1.toNat b.2.toNat

theorem Kept.trans {m'' : ByteMem} (h : Kept m m' live) (h' : Kept m' m'' live) : Kept m m'' live :=
  fun b hb x hlo hhi => (h' b hb x hlo hhi).trans (h b hb x hlo hhi)

/-- A block that is held lies in its page. -/
theorem Held.inPage (hl : Laid r h B e) (hh : Held B live) {b : Addr × Addr} (hb : b ∈ live) :
    ∃ p i, b.1 = p + 12 ∧ B p = some i ∧ i.used = true ∧ b.2.toNat ≤ i.size.toNat ∧
      b.1.toNat = p.toNat + 12 := by
  obtain ⟨p, i, hptr, hi, hused, hle⟩ := hh.page b hb
  exact ⟨p, i, hptr, hi, hused, hle, by rw [hptr]; exact hl.block_toNat hi⟩

/-- Writes behind the frontier. -/
theorem Held.kept_frontier (hl : Laid r h B e) (hh : Held B live) {n : Nat}
    (hm : OnlyOn h.mem m' e.toNat n) : Kept h.mem m' live := by
  intro b hb
  obtain ⟨p, i, -, hi, -, hle, hb12⟩ := hh.inPage hl hb
  have hin := (hl.inside hi).2
  exact hm.sameOn (Or.inl (by omega))

/-- Writes into a page that is not in use. -/
theorem Held.kept_unused (hl : Laid r h B e) (hh : Held B live) (hp : B p = some i)
    (hfree : i.used = false) (hm : OnlyOn h.mem m' p.toNat (12 + i.size.toNat)) :
    Kept h.mem m' live := by
  intro b hb
  obtain ⟨q, j, -, hj, hused, hle, hb12⟩ := hh.inPage hl hb
  have hqp : q ≠ p := by
    rintro rfl
    rw [Option.some_inj.mp (hj.symm.trans hp), hfree] at hused
    cases hused
  have hapart : q.toNat + (12 + j.size.toNat) ≤ p.toNat ∨ p.toNat + (12 + i.size.toNat) ≤ q.toNat :=
    hl.lay.apart hj hp hqp
  exact hm.sameOn (by omega)

/-- Writes into a header. -/
theorem Held.kept_header (hl : Laid r h B e) (hh : Held B live) (hp : B p = some i)
    (hm : OnlyOn h.mem m' p.toNat 12) : Kept h.mem m' live := by
  intro b hb
  obtain ⟨q, j, -, hj, -, hle, hb12⟩ := hh.inPage hl hb
  by_cases hqp : q = p
  · subst hqp
    exact hm.sameOn (Or.inr (by omega))
  · have hapart : q.toNat + (12 + j.size.toNat) ≤ p.toNat ∨ p.toNat + (12 + i.size.toNat) ≤ q.toNat :=
      hl.lay.apart hj hp hqp
    exact hm.sameOn (by omega)

/-! ## The steps -/

/-- What a request that fits returns: a block of zeros, and all that is held stays. -/
structure Granted (r : Region) (h : Heap) (live : List (Addr × Addr)) (size ptr : Addr)
    (h' : Heap) (B' : Addr → Option Page) (e' : Addr) : Prop where
  ptr_ne : ptr ≠ 0
  laid : Laid r h' B' e'
  held : Held B' ((ptr, size) :: live)
  kept : Kept h.mem h'.mem live
  zeros : ∀ a : Addr, ptr.toNat ≤ a.toNat → a.toNat < ptr.toNat + size.toNat → h'.mem a = 0

/-- **A request that fits.** -/
theorem alloc_fits (hl : Laid r h B e) (hh : Held B live) (junk : Addr)
    (hbig : ¬ r.start + 0x100000 ≤ r.start + size) (hfits : Fits r ⟨h, live⟩ (.alloc size junk)) :
    ∃ ptr h' B' e', alloc r h size junk = (h', ptr) ∧ Granted r h live size ptr h' B' e' := by
  obtain ⟨p, hpage, hsmall, hroom, hnew⟩ := hfits.resolve_left hbig
  obtain ⟨hmem, hne, hfree, hsize⟩ := pageFor_some hpage
  have hfin := r.bound
  have hp12 : (p + 12).toNat = p.toNat + 12 := by
    unfold Region.finish at hroom
    bv_omega
  have hptr : p + 12 ≠ 0 := by
    intro hzero
    rw [hzero] at hp12
    exact absurd hp12.symm (Nat.succ_ne_zero _)
  refine ⟨p + 12, take h p size, ?_⟩
  unfold take
  rcases hl.table p hmem with rfl | ⟨i, hi⟩
  · -- a new page at the frontier
    have hzero := hl.sizeOf_frontier (by omega)
    obtain ⟨honly, hholds⟩ := takeNew_holds (h := h) (p := p)
      (by unfold Region.finish at hroom; omega) hsmall
    rw [alloc_eq junk hbig hpage, take, if_pos hzero]
    refine ⟨_, _, rfl, hptr, hl.push (hnew hzero).1 hsmall hroom honly hholds,
      hh.cons (fun i hi => absurd rfl (hl.frontier_ne hi)) rfl (Nat.le_refl _),
      hh.kept_frontier hl honly, fun a hlo hhi => ?_⟩
    rw [honly a (Or.inr (by omega))]
    exact hl.zero a (by omega) (by omega)
  · obtain ⟨hflag, hcap⟩ := hl.lay.holds hi
    have hunused : i.used = false := hflag.symm.trans hfree
    have hheld : ∀ j, B p = some j → j.used = false := by
      intro j hj
      rw [Option.some_inj.mp (hj.symm.trans hi)]
      exact hunused
    have hbound := hl.bound hi
    by_cases hzero : i.size = 0
    · -- an empty page that was given back
      obtain ⟨-, hfar | rfl⟩ := hnew (hcap.trans hzero)
      · have hle := hfar e hl.frontier
        have hin := (hl.inside hi).2
        omega
      · obtain ⟨honly, hholds⟩ := takeNew_holds (h := h) (p := p) (by omega) hsmall
        have hwide := honly.mono (Nat.le_refl p.toNat)
          (by omega : p.toNat + 12 ≤ p.toNat + (12 + i.size.toNat))
        rw [alloc_eq junk hbig hpage, take, if_pos (hcap.trans hzero)]
        refine ⟨_, _, rfl, hptr, hl.rewrite hi hwide hholds hzero.symm
          (List.subset_append_left _ _) fun q hq => ?_, hh.cons hheld rfl (Nat.le_refl _),
          hh.kept_unused hl hi hunused hwide, fun a hlo hhi => ?_⟩
        · rcases List.mem_append.mp hq with hq | hq
          · exact Or.inl hq
          · refine Or.inr ⟨hzero, (List.mem_singleton.mp hq).trans ?_⟩
            exact BitVec.add_zero _
        · exact absurd hhi (Nat.not_lt_of_le hlo)
    · have hle : size.toNat ≤ i.size.toNat := by
        have hsmall' := i.small
        have hfit := hsize.resolve_left fun h => hzero (hcap.symm.trans h)
        rw [hcap, toInt_of_small hsmall, toInt_of_small hsmall'] at hfit
        omega
      obtain ⟨honly, hholds⟩ := takeAgain_holds size (by omega) (hl.lay.holds hi)
      have hwide := honly.mono (Nat.le_refl p.toNat)
        (by omega : p.toNat + (12 + size.toNat) ≤ p.toNat + (12 + i.size.toNat))
      rw [alloc_eq junk hbig hpage, take, if_neg fun h => hzero (hcap.symm.trans h)]
      refine ⟨_, _, rfl, hptr, hl.rewrite hi hwide hholds rfl (List.Subset.refl _)
        fun _ hq => Or.inl hq, hh.cons hheld rfl hle, hh.kept_unused hl hi hunused hwide,
        fun a hlo hhi => ?_⟩
      have hflag := onlyOn_setUsed (h.mem.fill (p + 12) size.toNat 0) p true
      exact (hflag a (Or.inr (by omega))).trans (fill_of_mem hlo hhi)

/-- A block that is held is given back. -/
theorem free_held (hl : Laid r h B e) (hh : Held B live) {b : Addr × Addr} (hb : b ∈ live) :
    ∃ B', Laid r (free h b.1) B' e ∧ Held B' (live.erase b) ∧ Kept h.mem (free h b.1).mem live ∧
      ∃ p j, b.1 = p + 12 ∧ B' p = some j ∧ j.used = false ∧ b.2.toNat ≤ j.size.toNat := by
  obtain ⟨p, i, hptr, hi, hused, hle⟩ := hh.page b hb
  obtain ⟨a, size⟩ := b
  obtain rfl : a = p + 12 := hptr
  have hbound := hl.bound hi
  have hpage : p + 12 - 12 = p := BitVec.add_sub_cancel p 12
  have hflag : bUsed h.mem p = true := (hl.lay.holds hi).1.trans hused
  have hfree : free h (p + 12) = { h with mem := setUsed h.mem p false } := by
    simp only [free, hpage, if_pos (hl.known hi), hflag, if_true]
  have honly := onlyOn_setUsed h.mem p false
  rw [hfree]
  exact ⟨_, hl.rewrite hi (honly.mono (Nat.le_refl _) (by omega))
    (setUsed_holds (by omega) (hl.lay.holds hi) false) rfl (List.Subset.refl _)
    fun _ hq => Or.inl hq, hh.erase hb, hh.kept_header hl hi (honly.mono (Nat.le_refl _) (by omega)),
    p, _, rfl, update_self _ _ _, rfl, hle⟩

/-- Bytes behind a header. -/
theorem laid_data (hl : Laid r h B e) (hi : B p = some i)
    (hm : OnlyOn h.mem m' (p.toNat + 12) i.size.toNat) : Laid r { h with mem := m' } B e := by
  have hbound := hl.bound hi
  have hholds : Page.Holds m' p i := by
    have h4 : (p + 4).toNat = p.toNat + 4 := by bv_omega
    obtain ⟨hflag, hcap⟩ := hl.lay.holds hi
    refine ⟨?_, ?_⟩
    · rw [← hflag, bUsed, bUsed, hm p (by omega)]
    · rw [← hcap, sizeOf, sizeOf, hm.load_eq (by omega) (by omega)]
  have hsame : update B p (some i) = B := by
    rw [← hi, update_eq_self]
  have hlaid := hl.rewrite hi (hm.mono (by omega) (by omega)) hholds rfl
    (List.Subset.refl _) fun _ hq => Or.inl hq
  rw [hsame] at hlaid
  exact hlaid

/-- Bytes in a block that is held. -/
theorem laid_write (hl : Laid r h B e) (hh : Held B live) {b : Addr × Addr} (hb : b ∈ live)
    (hm : OnlyOn h.mem m' b.1.toNat b.2.toNat) : Laid r { h with mem := m' } B e := by
  obtain ⟨p, i, -, hi, -, hle, hb12⟩ := hh.inPage hl hb
  exact laid_data hl hi (hm.mono (by omega) (by omega))

/-- The other blocks stay. -/
theorem Held.sameOn_write (hl : Laid r h B e) (hh : Held B live) {b c : Addr × Addr} (hb : b ∈ live)
    (hc : c ∈ live) (hne : c.1 ≠ b.1) (hm : OnlyOn h.mem m' b.1.toNat b.2.toNat) :
    SameOn h.mem m' c.1.toNat c.2.toNat := by
  obtain ⟨p, i, hptr, hi, -, hle, hb12⟩ := hh.inPage hl hb
  obtain ⟨q, j, hptr', hj, -, hle', hc12⟩ := hh.inPage hl hc
  have hqp : q ≠ p := fun heq => hne (by rw [hptr, hptr', heq])
  have hapart : q.toNat + (12 + j.size.toNat) ≤ p.toNat ∨ p.toNat + (12 + i.size.toNat) ≤ q.toNat :=
    hl.lay.apart hj hi hqp
  exact hm.sameOn (by omega)

/-- A block that is held is in its page's bounds. -/
theorem Held.bounds (hl : Laid r h B e) (hh : Held B live) {b : Addr × Addr} (hb : b ∈ live) :
    12 < b.1.toNat ∧ b.1.toNat + b.2.toNat ≤ r.finish := by
  obtain ⟨p, i, -, hi, -, hle, hb12⟩ := hh.inPage hl hb
  have hin := hl.inside hi
  have hend := hl.range.2
  have hpos := r.pos
  omega

/-- The page of a block that is held is in use. -/
theorem Held.used (hl : Laid r h B e) (hh : Held B live) {b : Addr × Addr} (hb : b ∈ live) :
    b.1 - 12 ∈ h.pageTable ∧ bUsed h.mem (b.1 - 12) = true := by
  obtain ⟨p, i, hptr, hi, hused, -⟩ := hh.page b hb
  have hpage : b.1 - 12 = p := by
    rw [hptr]
    exact BitVec.add_sub_cancel p 12
  rw [hpage]
  exact ⟨hl.known hi, (hl.lay.holds hi).1.trans hused⟩

theorem step_alloc {q : Heap × Addr} {junk : Addr} (hq : alloc r w.heap size junk = q) :
    step r w (.alloc size junk) = ⟨q.1, if q.2 = 0 then w.live else (q.2, size) :: w.live⟩ := by
  subst hq
  rfl

/-- A step of a run whose requests fit. -/
theorem laid_step (hl : Laid r w.heap B e) (hh : Held B w.live) {act : Act} (hact : Enabled w act)
    (hfits : Fits r w act) :
    ∃ B' e', Laid r (step r w act).heap B' e' ∧ Held B' (step r w act).live := by
  cases act with
  | alloc size junk =>
    by_cases hbig : r.start + 0x100000 ≤ r.start + size
    · have hnull : alloc r w.heap size junk = (w.heap, 0) := if_pos hbig
      rw [step_alloc hnull, if_pos rfl]
      exact ⟨B, e, hl, hh⟩
    · obtain ⟨ptr, h', B', e', hok, hg⟩ := alloc_fits hl hh junk hbig hfits
      rw [step_alloc hok, if_neg hg.ptr_ne]
      exact ⟨B', e', hg.laid, hg.held⟩
  | free b =>
    obtain ⟨B', hl', hh', -, -⟩ := free_held hl hh hact
    exact ⟨B', e, hl', hh'⟩
  | write b mem => exact ⟨B, e, laid_write hl hh hact.1 hact.2, hh⟩

theorem laid_init (hmem : ∀ a : Addr, r.start.toNat ≤ a.toNat → a.toNat < r.finish → m a = 0) :
    Laid r (Heap.init r m) (fun _ => none) r.start :=
  ⟨BlockKind.lay_empty m, fun _ hp => Or.inl (List.mem_singleton.mp hp), nofun,
    List.mem_singleton_self _, ⟨Nat.le_refl _, Nat.le_add_right _ _⟩, nofun, nofun, hmem⟩

/-- Every state of a run whose requests fit is laid out in pages. -/
theorem reaches_laid (hw : Reaches r (Fits r) w) :
    ∃ B e, Laid r w.heap B e ∧ Held B w.live := by
  induction hw with
  | init hmem => exact ⟨_, _, laid_init hmem, nofun, List.nodup_nil⟩
  | @step w act _ hact hfits ih =>
    obtain ⟨B, e, hl, hh⟩ := ih
    exact laid_step hl hh hact hfits

/-! ## The blocks -/

theorem capacity_eq (hl : Laid r w.heap B e) (hp : B p = some i) :
    capacity w.heap.mem (p + 12) = i.size.toNat := by
  have hpage : p + 12 - 12 = p := BitVec.add_sub_cancel p 12
  rw [capacity, hpage, (hl.lay.holds hp).2, toInt_of_small i.small]

theorem sound_of_laid (hl : Laid r w.heap B e) (hh : Held B w.live) : Sound r w := by
  refine ⟨fun b hb => ?_, fun b hb => ?_, ?_, fun b hb q hq => ?_⟩
  · obtain ⟨p, i, hptr, hi, -, hle⟩ := hh.page b hb
    have hsmall := i.small
    rw [hptr, capacity_eq hl hi, toInt_of_small (by omega)]
    exact Int.ofNat_le.mpr hle
  · obtain ⟨p, i, hptr, hi, -, -⟩ := hh.page b hb
    have hin := hl.inside hi
    have hp12 := hl.block_toNat hi
    have hend := hl.range.2
    rw [hptr, capacity_eq hl hi]
    omega
  · refine (List.Pairwise.and_mem.mp (List.pairwise_map.mp hh.nodup)).imp ?_
    rintro b c ⟨hb, hc, hne⟩
    obtain ⟨p, i, hptr, hi, -, -⟩ := hh.page b hb
    obtain ⟨q, j, hptr', hj, -, -⟩ := hh.page c hc
    have hpq : p ≠ q := fun heq => hne (by rw [hptr, hptr', heq])
    have hapart : p.toNat + (12 + i.size.toNat) ≤ q.toNat ∨ q.toNat + (12 + j.size.toNat) ≤ p.toNat :=
      hl.lay.apart hi hj hpq
    have hp12 := hl.block_toNat hi
    have hq12 := hl.block_toNat hj
    rw [hptr, hptr', capacity_eq hl hi, capacity_eq hl hj]
    omega
  · obtain ⟨p, i, hptr, hi, -, -⟩ := hh.page b hb
    have hp12 := hl.block_toNat hi
    have hin := hl.inside hi
    rw [hptr, capacity_eq hl hi]
    rcases hl.table q hq with rfl | ⟨j, hj⟩
    · omega
    · by_cases hpq : p = q
      · subst hpq
        omega
      · have hapart : p.toNat + (12 + i.size.toNat) ≤ q.toNat ∨
            q.toNat + (12 + j.size.toNat) ≤ p.toNat := hl.lay.apart hi hj hpq
        omega

/-- **In every run whose requests fit the blocks are sound.** -/
theorem reaches_sound (hw : Reaches r (Fits r) w) : Sound r w := by
  obtain ⟨B, e, hl, hh⟩ := reaches_laid hw
  exact sound_of_laid hl hh

/-- `MMAP_ADDR`. -/
def mmapAddr : Region := ⟨0x31337000, by decide, by decide⟩

/-- A request for one byte. -/
def askOne : World := step mmapAddr ⟨Heap.init mmapAddr fun _ => 0, []⟩ (.alloc 1 0)

/-- **The header behind a new page is inside its block**, unless the size is a multiple of
twelve. -/
theorem alloc_breaks : ¬∀ (r : Region) (w : World), Reaches r (fun _ _ => True) w → Sound r w := by
  intro hclaim
  have hreach : Reaches mmapAddr (fun _ _ => True) askOne :=
    .step (.init fun _ _ _ => rfl) trivial trivial
  have hlive : (0x3133700c, 1) ∈ askOne.live := by decide +kernel
  have htable : 0x3133700c ∈ askOne.heap.pageTable := by decide +kernel
  have happart := (hclaim _ _ hreach).headers _ hlive _ htable
  have hcap : capacity askOne.heap.mem 0x3133700c = 1 := by decide +kernel
  rw [hcap] at happart
  exact absurd happart (by decide)

/-- A request for 24 bytes. -/
theorem reaches_sound_24 : ∃ w, w.live = [(0x3133700c, 24)] ∧ Sound mmapAddr w := by
  have hfits : Fits mmapAddr ⟨Heap.init mmapAddr fun _ => 0, []⟩ (.alloc 24 0) := by
    refine .inr ⟨0x31337000, by decide +kernel, by decide, by decide, fun _ => ⟨by decide, .inl ?_⟩⟩
    intro q hq
    rw [List.mem_singleton.mp hq]
    exact Nat.le_refl _
  have hreach : Reaches mmapAddr (Fits mmapAddr)
      (step mmapAddr ⟨Heap.init mmapAddr fun _ => 0, []⟩ (.alloc 24 0)) :=
    .step (.init fun _ _ _ => rfl) trivial hfits
  have hlive : (step mmapAddr ⟨Heap.init mmapAddr fun _ => 0, []⟩ (.alloc 24 0)).live =
      [(0x3133700c, 24)] := by decide +kernel
  exact ⟨_, hlive, reaches_sound hreach⟩

end Quals2017.Empanada
