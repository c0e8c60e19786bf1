import Quals2017.Liberty.Layers

/-!
# What the phases write

* `findBestChar_spec`: the byte that `FindBestChar` returns is rare.
* `Built key start list cur`: the dictionary `list` of `Phase2`, with what has become of its data
  `start`. `phase2Search_built` says that `Phase2` builds one.
* `Shrunk special data out`: rounds of `Phase3`. `phase3_shrunk` says that `Phase3` does some.
-/

namespace Quals2017.Liberty

open Quals2017.Lib.Stretch

variable {key : Byte} {data start cur : List Byte} {list : List (List Byte)}

/-! ## `FindBestChar` -/

/-- The body of the loop of `FindBestChar`. -/
def better (data : List Byte) (skip : Nat) (best : Byte × Nat) (i : Nat) : Byte × Nat :=
  if skip < 256 ∧ i = skip then best
  else if data.count (BitVec.ofNat 8 i) < best.2 then
    (BitVec.ofNat 8 i, data.count (BitVec.ofNat 8 i))
  else best

/-- The loop of `FindBestChar`, from any byte on: it finds the first of the rarest. -/
theorem better_fold {data : List Byte} {skip : Nat} {l : List Nat} (hl : ∀ i ∈ l, i < 256)
    (hsorted : l.Pairwise (· < ·)) : ∀ (best : Byte × Nat),
      let r := l.foldl (better data skip) best
      r.2 ≤ best.2 ∧ (∀ i ∈ l, i ≠ skip → r.2 ≤ data.count (BitVec.ofNat 8 i)) ∧
        (∀ i ∈ l, i ≠ skip → data.count (BitVec.ofNat 8 i) = r.2 → r = best ∨ r.1.toNat ≤ i) ∧
        (r = best ∨ r.2 < best.2 ∧ r.2 = data.count r.1 ∧ r.1.toNat ≠ skip) := by
  induction l with
  | nil =>
    exact fun best => ⟨Nat.le_refl _, fun i hi => absurd hi List.not_mem_nil,
      fun i hi => absurd hi List.not_mem_nil, Or.inl rfl⟩
  | cons i l ih =>
    intro best
    obtain ⟨hfirst, hsorted⟩ := List.pairwise_cons.mp hsorted
    have hi := hl i List.mem_cons_self
    have ih := ih (fun j hj => hl j (List.mem_cons_of_mem i hj)) hsorted
    have hat : (BitVec.ofNat 8 i).toNat = i := toNat_mark hi
    simp only [List.foldl_cons]
    by_cases hskip : skip < 256 ∧ i = skip
    · have hbest : better data skip best i = best := if_pos hskip
      rw [hbest]
      obtain ⟨h₁, h₂, h₃, h₄⟩ := ih best
      refine ⟨h₁, fun j hj hne => ?_, fun j hj hne heq => ?_, h₄⟩
      · rcases List.mem_cons.mp hj with rfl | hj
        · exact absurd hskip.2 hne
        · exact h₂ j hj hne
      · rcases List.mem_cons.mp hj with rfl | hj
        · exact absurd hskip.2 hne
        · exact h₃ j hj hne heq
    · by_cases hlt : data.count (BitVec.ofNat 8 i) < best.2
      · have hbest : better data skip best i =
            (BitVec.ofNat 8 i, data.count (BitVec.ofNat 8 i)) := by
          rw [better, if_neg hskip, if_pos hlt]
        rw [hbest]
        obtain ⟨h₁, h₂, h₃, h₄⟩ := ih (BitVec.ofNat 8 i, data.count (BitVec.ofNat 8 i))
        generalize l.foldl (better data skip) (BitVec.ofNat 8 i, data.count (BitVec.ofNat 8 i)) =
          r at *
        refine ⟨Nat.le_trans h₁ (Nat.le_of_lt hlt), fun j hj hne => ?_, fun j hj hne heq => ?_, ?_⟩
        · rcases List.mem_cons.mp hj with rfl | hj
          · exact h₁
          · exact h₂ j hj hne
        · rcases List.mem_cons.mp hj with rfl | hj
          · rcases h₄ with rfl | ⟨hless, -⟩
            · exact Or.inr (Nat.le_of_eq hat)
            · exact absurd heq.symm (Nat.ne_of_lt hless)
          · rcases h₃ j hj hne heq with rfl | hle
            · exact Or.inr (Nat.le_trans (Nat.le_of_eq hat) (Nat.le_of_lt (hfirst j hj)))
            · exact Or.inr hle
        · rcases h₄ with rfl | ⟨hless, hrest⟩
          · exact Or.inr ⟨hlt, rfl, fun heq => hskip ⟨heq ▸ BitVec.isLt _, hat.symm.trans heq⟩⟩
          · exact Or.inr ⟨Nat.lt_trans hless hlt, hrest⟩
      · have hbest : better data skip best i = best := by rw [better, if_neg hskip, if_neg hlt]
        rw [hbest]
        obtain ⟨h₁, h₂, h₃, h₄⟩ := ih best
        refine ⟨h₁, fun j hj hne => ?_, fun j hj hne heq => ?_, h₄⟩
        · rcases List.mem_cons.mp hj with rfl | hj
          · exact Nat.le_trans h₁ (Nat.le_of_not_lt hlt)
          · exact h₂ j hj hne
        · rcases List.mem_cons.mp hj with rfl | hj
          · rcases h₄ with h | ⟨hless, -⟩
            · exact Or.inl h
            · exact absurd (heq ▸ hless) hlt
          · exact h₃ j hj hne heq

/-- `FindBestChar` finds the first of the rarest bytes, or that all are as rare as none. -/
theorem findBestChar_fold (data : List Byte) (skip : Nat) :
    (∀ i ∈ List.range 256, i ≠ skip →
        (findBestChar data skip).2 ≤ data.count (BitVec.ofNat 8 i)) ∧
      (∀ i ∈ List.range 256, i ≠ skip →
        data.count (BitVec.ofNat 8 i) = (findBestChar data skip).2 →
          (findBestChar data skip).2 = data.length ∨ (findBestChar data skip).1.toNat ≤ i) ∧
      ((findBestChar data skip).2 = data.length ∨
        (findBestChar data skip).2 = data.count (findBestChar data skip).1 ∧
          (findBestChar data skip).1.toNat ≠ skip) := by
  obtain ⟨-, h₂, h₃, h₄⟩ := better_fold (fun i hi => List.mem_range.mp hi)
    List.pairwise_lt_range (0, data.length)
  refine ⟨h₂, fun i hi hne heq => (h₃ i hi hne heq).imp (congrArg Prod.snd ·) id, ?_⟩
  exact h₄.imp (congrArg Prod.snd ·) fun h => h.2

attribute [local irreducible] findBestChar

/-- No byte but the one to skip is rarer than the one that `FindBestChar` returns. -/
theorem findBestChar_le {skip : Nat} (c : Byte) (hc : c.toNat ≠ skip) :
    (findBestChar data skip).2 ≤ data.count c := by
  have h := (findBestChar_fold data skip).1 c.toNat (List.mem_range.mpr c.isLt) hc
  rwa [BitVec.ofNat_toNat, BitVec.setWidth_eq] at h

/-- The byte that `FindBestChar` returns, if one of those that it looks at is not all of the
data. -/
theorem findBestChar_spec {skip : Nat} {c : Byte} (hc : c.toNat ≠ skip)
    (hlt : data.count c < data.length) :
    (findBestChar data skip).2 = data.count (findBestChar data skip).1 ∧
      (findBestChar data skip).1.toNat ≠ skip := by
  have hle : (findBestChar data skip).2 ≤ data.count c := findBestChar_le c hc
  rcases (findBestChar_fold data skip).2.2 with heq | hrest
  · omega
  · exact hrest

/-- A byte that does not occur makes `FindBestChar` return the first that does not. -/
theorem findBestChar_of_notMem {c : Byte} (hc : c ∉ data) (hdata : data ≠ []) :
    (findBestChar data 0x100).1 ∉ data ∧ (findBestChar data 0x100).2 = 0 ∧
      (findBestChar data 0x100).1.toNat ≤ c.toNat := by
  have hne : c.toNat ≠ 0x100 := Nat.ne_of_lt c.isLt
  have hzero : data.count c = 0 := List.count_eq_zero.mpr hc
  have hpos : 0 < data.length := List.length_pos_iff.mpr hdata
  have hle : (findBestChar data 0x100).2 ≤ data.count c := findBestChar_le c hne
  obtain ⟨hcount, -⟩ := @findBestChar_spec data 0x100 c hne (by omega)
  have hbest : (findBestChar data 0x100).2 = 0 := by omega
  refine ⟨List.count_eq_zero.mp (hcount ▸ hbest), hbest, ?_⟩
  have hfirst := (findBestChar_fold data 0x100).2.1 c.toNat (List.mem_range.mpr c.isLt) hne
  rw [BitVec.ofNat_toNat, BitVec.setWidth_eq] at hfirst
  rcases hfirst (hzero.trans hbest.symm) with heq | hle
  · omega
  · exact hle

/-! ## `Phase2` -/

/-- The dictionary after some replacements in `start`. The entry with the number of the key, and
the last one, are not used. -/
inductive Built (key : Byte) (start : List Byte) : List (List Byte) → List Byte → Prop
  | nil : Built key start [] start
  | skip {list : List (List Byte)} {cur : List Byte} (h : Built key start list cur)
      (hlen : list.length = key.toNat) : Built key start (list ++ [[key, key]]) cur
  | last {list : List (List Byte)} {cur find : List Byte} (h : Built key start list cur)
      (hlen : list.length = 255) (hkey : list.length ≠ key.toNat)
      (hfind : 2 ≤ find.length ∧ find.length < 256) : Built key start (list ++ [find]) cur
  | entry {list : List (List Byte)} {cur cur' find : List Byte} (h : Built key start list cur)
      (hlen : list.length < 255) (hkey : list.length ≠ key.toNat)
      (hr : Replaced find (markOf key list.length) cur cur')
      (hfind : 2 ≤ find.length ∧ find.length < 256) : Built key start (list ++ [find]) cur'

namespace Built

/-- The length of an entry is a byte, and not 0. -/
theorem entry_length (h : Built key start list cur) :
    ∀ e ∈ list, 2 ≤ e.length ∧ e.length < 256 := by
  induction h with
  | nil => exact fun e he => absurd he List.not_mem_nil
  | skip _ _ ih =>
    intro e he
    rcases List.mem_append.mp he with he | he
    · exact ih e he
    · rw [List.mem_singleton.mp he]
      exact ⟨Nat.le_refl 2, show 2 < 256 by decide⟩
  | last _ _ _ hfind ih =>
    intro e he
    rcases List.mem_append.mp he with he | he
    · exact ih e he
    · rwa [List.mem_singleton.mp he]
  | entry _ _ _ _ hfind ih =>
    intro e he
    rcases List.mem_append.mp he with he | he
    · exact ih e he
    · rwa [List.mem_singleton.mp he]

theorem length_le (h : Built key start list cur) : list.length ≤ 256 := by
  cases h with
  | nil => exact Nat.zero_le _
  | skip _ hlen =>
    have := key.isLt
    rw [List.length_append, hlen, List.length_singleton]
    omega
  | last _ hlen _ _ =>
    exact Nat.le_of_eq (by rw [List.length_append, hlen, List.length_singleton])
  | entry _ hlen _ _ _ =>
    rw [List.length_append, List.length_singleton]
    omega

/-- A byte of the data stays, in it or in an entry. -/
theorem mem (h : Built key start list cur) {a : Byte} (ha : a ∈ start) :
    a ∈ cur ∨ ∃ e ∈ list, a ∈ e := by
  induction h with
  | nil => exact Or.inl ha
  | skip _ _ ih => exact ih.imp id fun ⟨e, he, hmem⟩ => ⟨e, List.mem_append_left _ he, hmem⟩
  | last _ _ _ _ ih => exact ih.imp id fun ⟨e, he, hmem⟩ => ⟨e, List.mem_append_left _ he, hmem⟩
  | entry _ _ _ hr _ ih =>
    rcases ih with ih | ⟨e, he, hmem⟩
    · rcases hr.mem ih with hmem | hmem
      · exact Or.inr ⟨_, List.mem_append_right _ List.mem_cons_self, hmem⟩
      · exact Or.inl hmem
    · exact Or.inr ⟨e, List.mem_append_left _ he, hmem⟩

theorem eq_of_nil (h : Built key start [] cur) : cur = start := by
  generalize hlist : ([] : List (List Byte)) = list at h
  cases h with
  | nil => rfl
  | skip _ _ => exact absurd hlist (by simp)
  | last _ _ _ _ => exact absurd hlist (by simp)
  | entry _ _ _ _ _ => exact absurd hlist (by simp)

end Built

/-- What `memfind` finds. -/
theorem memfind_spec {find : List Byte} : ∀ {buf : List Byte} {p : Nat},
    memfind buf find = some p → buf = buf.take p ++ find ++ buf.drop (p + find.length) := by
  intro buf
  induction buf with
  | nil => exact fun h => nomatch h
  | cons b buf ih =>
    intro p h
    have hlater : (memfind buf find).map (· + 1) = some p →
        b :: buf = (b :: buf).take p ++ find ++ (b :: buf).drop (p + find.length) := by
      intro hmap
      obtain ⟨q, hq, rfl⟩ := Option.map_eq_some_iff.mp hmap
      have heq := ih hq
      rw [List.take_succ_cons, Nat.add_right_comm, List.drop_succ_cons, List.cons_append,
        List.cons_append, ← heq]
    rw [memfind] at h
    split_ifs at h with h₁ h₂ h₃
    · rw [← Option.some.inj h, List.take_zero, List.nil_append, Nat.zero_add]
      calc b :: buf = (b :: buf).take find.length ++ (b :: buf).drop find.length :=
            (List.take_append_drop _ _).symm
        _ = find ++ (b :: buf).drop find.length := by rw [h₃]
    · exact hlater h
    · exact hlater h

/-- Behind a place where an entry is replaced, the loop goes on at the next one, if there is one. -/
theorem replaced_next {find mark : List Byte} {n : Nat}
    (ih : ∀ {p : Nat} {l : List Byte}, memfind l find = some p →
      Replaced find mark l (replaceRest find mark n l p)) (l : List Byte) :
    Replaced find mark l (match memfind l find with
      | none => l
      | some q => replaceRest find mark n l q) := by
  cases hnext : memfind l find with
  | none => exact Replaced.refl _
  | some q => exact ih hnext

/-- The loop that replaces an entry. -/
theorem replaceRest_replaced {find mark : List Byte} : ∀ {n p : Nat} {l : List Byte},
    memfind l find = some p → Replaced find mark l (replaceRest find mark n l p) := by
  intro n
  induction n with
  | zero => exact fun _ => Replaced.refl _
  | succ n ih =>
    intro p l h
    rw [replaceRest]
    have hrest := replaced_next ih (l.drop (p + find.length))
    have hl := memfind_spec h
    rw [List.append_assoc] at hl ⊢
    have hall := Replaced.append (l.take p) (Replaced.mark hrest)
    rwa [← hl] at hall

/-- An entry is added. -/
theorem addEntry_built {i pos next : Nat} {s s' : Dict} (hb : Built key start s.list s.cur)
    (hpos : pos + i < s.cur.length) (hi : 3 ≤ i ∧ i < 256)
    (hnext : memfind (s.cur.drop (pos + i)) ((s.cur.drop pos).take i) = some next)
    (h : addEntry key i pos next s = some s') : Built key start s'.list s'.cur := by
  have hfind : ((s.cur.drop pos).take i).length = i := by
    rw [List.length_take, List.length_drop]
    omega
  obtain ⟨hb', hne⟩ : Built key start
      (if s.list.length = key.toNat then s.list ++ [[key, key]] else s.list) s.cur ∧
      (if s.list.length = key.toNat then s.list ++ [[key, key]] else s.list).length ≠ key.toNat := by
    split_ifs with hkey
    · refine ⟨hb.skip hkey, ?_⟩
      rw [List.length_append, hkey]
      exact Nat.succ_ne_self _
    · exact ⟨hb, hkey⟩
  unfold addEntry at h
  simp only at h
  generalize (if s.list.length = key.toNat then s.list ++ [[key, key]] else s.list) = list at *
  split_ifs at h with h₁ h₂
  · rw [← Option.some.inj h]
    exact hb'.last (by omega) hne (by omega)
  · rw [← Option.some.inj h]
    refine hb'.entry (by omega) hne ?_ (by omega)
    have hcur : s.cur = s.cur.take pos ++ ((s.cur.drop pos).take i ++ s.cur.drop (pos + i)) := by
      rw [← List.drop_drop, List.take_append_drop, List.take_append_drop]
    have hrest := @replaceRest_replaced _ (markOf key list.length) (s.cur.drop (pos + i)).length _ _
      hnext
    have hall := Replaced.append (s.cur.take pos) (Replaced.mark hrest)
    rw [← hcur] at hall
    rw [List.append_assoc]
    exact hall

theorem searchPos_built {i : Nat} (hi : 3 ≤ i ∧ i < 256) : ∀ {n pos : Nat} {s s' : Dict},
    Built key start s.list s.cur → searchPos key i n pos s = some s' →
      Built key start s'.list s'.cur := by
  intro n
  induction n with
  | zero =>
    intro pos s s' hb h
    rwa [← Option.some.inj h]
  | succ n ih =>
    intro pos s s' hb h
    rw [searchPos] at h
    by_cases hpos : pos + i < s.cur.length
    · rw [if_pos hpos] at h
      cases hnext : memfind (s.cur.drop (pos + i)) ((s.cur.drop pos).take i) with
      | none =>
        rw [hnext] at h
        simp only at h
        split_ifs at h
        · rwa [← Option.some.inj h]
        · exact ih hb h
      | some next =>
        rw [hnext] at h
        simp only at h
        cases hadd : addEntry key i pos next s with
        | none => exact nomatch hadd ▸ h
        | some s₁ =>
          rw [hadd] at h
          simp only at h
          have hb₁ := addEntry_built hb hpos hi hnext hadd
          split_ifs at h
          · rwa [← Option.some.inj h]
          · exact ih hb₁ h
    · rw [if_neg hpos] at h
      rwa [← Option.some.inj h]

theorem searchLen_built : ∀ {n : Nat} {s s' : Dict}, n < 254 → Built key start s.list s.cur →
    searchLen key n s = some s' → Built key start s'.list s'.cur := by
  intro n
  induction n with
  | zero =>
    intro s s' _ hb h
    rwa [← Option.some.inj h]
  | succ n ih =>
    intro s s' hn hb h
    rw [searchLen] at h
    cases hpos : searchPos key (n + 3) (s.cur.length + 1) 0 s with
    | none => exact nomatch hpos ▸ h
    | some s₁ =>
      rw [hpos] at h
      exact ih (by omega) (searchPos_built ⟨by omega, by omega⟩ hb hpos) h

/-- **`Phase2` builds a dictionary.** -/
theorem phase2Search_built {s : Dict} (h : phase2Search data = some s) :
    Built (phase2Start data).1 (phase2Start data).2 s.list s.cur :=
  searchLen_built (by decide) Built.nil h

/-- The escapes of `Phase2`, where the key does not occur. -/
theorem escape_eq {rest : List Byte} : ∀ {cur : List Byte}, key ∉ cur ++ rest →
    escape key cur.length rest cur = cur ++ rest := by
  induction rest with
  | nil =>
    intro cur _
    rw [escape, List.append_nil]
  | cons b rest ih =>
    intro cur hkey
    have hne : (cur ++ [b]).getD cur.length 0 ≠ key := by
      rw [List.getD_eq_getElem?_getD, List.getElem?_concat_length, Option.getD_some]
      rintro rfl
      exact hkey (List.mem_append_right cur List.mem_cons_self)
    rw [List.append_cons] at hkey
    have hrest := ih hkey
    rw [List.length_append, List.length_singleton] at hrest
    rw [escape, if_neg hne, hrest, List.append_assoc, List.singleton_append]

theorem escape_start {l : List Byte} (hkey : key ∉ l) : escape key 0 l [] = l :=
  @escape_eq key l [] hkey

/-- The escapes of `Phase2` leave the bytes of the data. -/
theorem mem_escape {rest : List Byte} {a : Byte} : ∀ {i : Nat} {cur : List Byte},
    a ∈ cur ∨ a ∈ rest → a ∈ escape key i rest cur := by
  induction rest with
  | nil =>
    intro i cur h
    rw [escape]
    exact h.resolve_right List.not_mem_nil
  | cons b rest ih =>
    intro i cur h
    rw [escape]
    refine ih ?_
    have hcur : a ∈ cur ++ [b] ∨ a ∈ rest := by
      rw [List.mem_append, List.mem_singleton, or_assoc]
      rwa [List.mem_cons] at h
    split_ifs
    · exact hcur.imp (List.mem_append_left _) id
    · exact hcur

/-- The bytes of the data are in what `Phase2` writes. -/
theorem mem_phase2Out {a : Byte} {s : Dict} (hb : Built key start s.list s.cur) (ha : a ∈ start) :
    a ∈ phase2Out key s := by
  refine List.mem_cons_of_mem key ?_
  rcases hb.mem ha with hmem | ⟨e, he, hmem⟩
  · exact List.mem_append_right _ hmem
  · exact List.mem_append_left _ (List.mem_flatMap.mpr ⟨e, he, List.mem_cons_of_mem _ hmem⟩)

/-- **What `Phase2` starts with**, where a byte does not occur in what it writes: its key does not
occur in the data, nor is it the escape byte. -/
theorem phase2Start_spec {c : Byte} {s : Dict} (hs : phase2Search data = some s)
    (hc : c ∉ phase2Out (phase2Start data).1 s) :
    (phase2Start data).2 = 0 :: data ∧ (phase2Start data).1 ∉ 0 :: data ∧
      (phase2Start data).1 ≠ 0xff := by
  have hb := phase2Search_built hs
  have hdata : c ∉ 0 :: data := fun hmem => hc (mem_phase2Out hb (mem_escape (Or.inr hmem)))
  obtain ⟨hkey, -, hfirst⟩ := findBestChar_of_notMem hdata (List.cons_ne_nil 0 data)
  have hkey' : (phase2Start data).1 ∉ 0 :: data := hkey
  refine ⟨?_, hkey', fun hff => ?_⟩
  · exact escape_start hkey'
  · have hle : (phase2Start data).1.toNat ≤ c.toNat := hfirst
    have hlt := c.isLt
    have htop : (0xff : Byte).toNat = 255 := rfl
    rw [hff, htop] at hle
    have heq : c = (phase2Start data).1 := by
      rw [hff]
      exact BitVec.eq_of_toNat_eq (by omega)
    exact hc (heq ▸ List.mem_cons_self)

/-! ## `Phase3` -/

/-- Rounds of `Phase3`. -/
inductive Shrunk (special : Byte) : List Byte → List Byte → Prop
  | refl (data : List Byte) : Shrunk special data data
  | step {data out : List Byte} {key lo hi : Byte} (hkey : key ≠ special)
      (hlt : (key :: lo :: hi :: replacePairs key special lo hi data).length < data.length)
      (h : Shrunk special (key :: lo :: hi :: replacePairs key special lo hi data) out) :
      Shrunk special data out

theorem exists_other (x y : Byte) : ∃ c : Byte, c ≠ x ∧ c ≠ y := by
  obtain ⟨k, hk, hx, hy⟩ : ∃ k, k < 3 ∧ k ≠ x.toNat ∧ k ≠ y.toNat := by
    by_cases h₀ : 0 ≠ x.toNat ∧ 0 ≠ y.toNat
    · exact ⟨0, by omega, h₀⟩
    · by_cases h₁ : 1 ≠ x.toNat ∧ 1 ≠ y.toNat
      · exact ⟨1, by omega, h₁⟩
      · exact ⟨2, by omega, by omega, by omega⟩
  have hat : (BitVec.ofNat 8 k).toNat = k := toNat_mark (by omega)
  exact ⟨BitVec.ofNat 8 k, fun h => hx (hat.symm.trans (congrArg _ h)),
    fun h => hy (hat.symm.trans (congrArg _ h))⟩

/-- The key of a round is not the special one. -/
theorem round_spec {special : Byte} {out : List Byte} (hdata : data ≠ [])
    (h : round special data = some out) :
    ∃ key lo hi, key ≠ special ∧ out = key :: lo :: hi :: replacePairs key special lo hi data := by
  unfold round at h
  simp only at h
  split_ifs at h
  refine ⟨_, _, _, ?_, (Option.some.inj h).symm⟩
  obtain ⟨a, rest, rfl⟩ := List.exists_cons_of_ne_nil hdata
  obtain ⟨c, hcs, hca⟩ := exists_other special a
  have hcount : (a :: rest).count c < (a :: rest).length := by
    refine Nat.lt_of_le_of_ne List.count_le_length fun heq => hca ?_
    exact List.count_eq_length.mp heq a List.mem_cons_self
  have hne := (findBestChar_spec (fun heq => hcs (BitVec.eq_of_toNat_eq heq)) hcount).2
  exact fun heq => hne (congrArg _ heq)

/-- The loop of `Phase3`. -/
theorem shrink_shrunk {special : Byte} {n : Nat} : ∀ {data : List Byte}, data ≠ [] →
    Shrunk special data (shrink special n data) := by
  induction n with
  | zero =>
    intro data _
    exact Shrunk.refl data
  | succ n ih =>
    intro data hdata
    rw [shrink_succ]
    cases hround : round special data with
    | none => exact Shrunk.refl data
    | some out =>
      simp only
      split_ifs with hlt
      · obtain ⟨key, lo, hi, hkey, rfl⟩ := round_spec hdata hround
        exact Shrunk.step hkey hlt (ih (List.cons_ne_nil _ _))
      · exact Shrunk.refl data

/-- Without a round the data is as it was. After one it begins with the key of the round. -/
theorem Shrunk.head {special : Byte} {out : List Byte} (h : Shrunk special data out) :
    out = data ∨ ∃ key rest, out = key :: rest ∧ key ≠ special := by
  induction h with
  | refl data => exact Or.inl rfl
  | step hkey _ _ ih =>
    rcases ih with rfl | ih
    · exact Or.inr ⟨_, _, rfl, hkey⟩
    · exact Or.inr ih

/-- **`Phase3`**, where it finds a byte that does not occur. -/
theorem phase3_spec {z : List Byte} (h : phase3 data = some z) (hdata : data ≠ []) :
    ∃ special out, special ∉ data ∧ z = special :: out ∧ Shrunk special (special :: data) out := by
  obtain ⟨a, rest, rfl⟩ := List.exists_cons_of_ne_nil hdata
  obtain ⟨c, -, hca⟩ := exists_other a a
  have hlt : (a :: rest).count c < (a :: rest).length := by
    refine Nat.lt_of_le_of_ne List.count_le_length fun heq => hca ?_
    exact List.count_eq_length.mp heq a List.mem_cons_self
  have hne : c.toNat ≠ 0x100 := Nat.ne_of_lt c.isLt
  have hspec := (@findBestChar_spec (a :: rest) 0x100 c hne hlt).1
  unfold phase3 at h
  simp only at h
  generalize findBestChar (a :: rest) 0x100 = special at *
  split_ifs at h with hcount
  have hzero : special.2 = 0 := not_not.mp hcount
  refine ⟨special.1, _, ?_, (Option.some.inj h).symm, shrink_shrunk (List.cons_ne_nil _ _)⟩
  exact List.count_eq_zero.mp (hspec.symm.trans hzero)

end Quals2017.Liberty
