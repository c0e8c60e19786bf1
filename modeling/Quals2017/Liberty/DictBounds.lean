import Quals2017.Liberty.Phases

/-!
# The dictionary of `Phase2` in its bounds (`liberty/server/compress.c:200-279`)

`DataList` has 256 entries. The check for the 256th ends the loop over the positions only, so each
shorter length still looks at its first position, and it comes after an entry has been added, so a
key with the number 255 takes the last place for its dummy entry.

* `Visits`: what the two loops go through.
* `phase2_eq_none_iff`: `phase2` fails where an entry is added behind the end of `DataList`.
* **`inBounds_iff`**: in which runs that does not happen.
The module `DictOverrun` has an input for which it does happen.
-/

namespace Quals2017.Liberty

variable {key : Byte} {data : List Byte} {i pos next : Nat} {s s' : Dict}

/-- The number of the entry that `Phase2` adds next: its index in `DataList`, and the byte behind
the key in the data. -/
def entryIndex (key : Byte) (s : Dict) : Nat :=
  if s.list.length = key.toNat then s.list.length + 1 else s.list.length

/-- `DataPos`: where the `i` bytes at `pos` occur again. -/
def nextAt (i pos : Nat) (s : Dict) : Option Nat :=
  memfind (s.cur.drop (pos + i)) ((s.cur.drop pos).take i)

/-- What the loops of `Phase2` go through: the length `i`, the position `pos` and the data, each
time before the comparison with the length of the data. -/
inductive Visits (data : List Byte) : Nat → Nat → Dict → Prop
  | start : Visits data 255 0 ⟨[], (phase2Start data).2⟩
  | skip {i pos : Nat} {s : Dict} (h : Visits data i pos s) (hpos : pos + i < s.cur.length)
      (hnext : nextAt i pos s = none) (hlen : s.list.length ≠ 256) : Visits data i (pos + 1) s
  | add {i pos next : Nat} {s s' : Dict} (h : Visits data i pos s) (hpos : pos + i < s.cur.length)
      (hnext : nextAt i pos s = some next)
      (hadd : addEntry (phase2Start data).1 i pos next s = some s') (hlen : s'.list.length ≠ 256) :
      Visits data i pos s'
  | fill {i pos next : Nat} {s s' : Dict} (h : Visits data i pos s)
      (hpos : pos + i < s.cur.length) (hnext : nextAt i pos s = some next)
      (hadd : addEntry (phase2Start data).1 i pos next s = some s') (hlen : s'.list.length = 256)
      (hi : 3 < i) : Visits data (i - 1) 0 s'
  | full {i pos : Nat} {s : Dict} (h : Visits data i pos s) (hpos : pos + i < s.cur.length)
      (hnext : nextAt i pos s = none) (hlen : s.list.length = 256) (hi : 3 < i) :
      Visits data (i - 1) 0 s
  | shorter {i pos : Nat} {s : Dict} (h : Visits data i pos s) (hpos : s.cur.length ≤ pos + i)
      (hi : 3 < i) : Visits data (i - 1) 0 s

/-- **`Phase2` stays in `DataList`**: each entry that it adds has a number below 256. -/
def InBounds (data : List Byte) : Prop :=
  ∀ i pos next s, Visits data i pos s → pos + i < s.cur.length → nextAt i pos s = some next →
    entryIndex (phase2Start data).1 s < 256

/-! ## What a run keeps -/

theorem addEntry_eq_none_iff : addEntry key i pos next s = none ↔ 256 ≤ entryIndex key s := by
  have hlen : (if s.list.length = key.toNat then s.list ++ [[key, key]] else s.list).length =
      entryIndex key s := by
    unfold entryIndex
    split_ifs
    · rw [List.length_append, List.length_singleton]
    · rfl
  unfold addEntry
  simp only [hlen]
  split_ifs with h₁ h₂
  · exact iff_of_true rfl h₁
  · exact iff_of_false (fun h => nomatch h) h₁
  · exact iff_of_false (fun h => nomatch h) h₁

/-- An entry that is not the last one makes the data shorter. -/
theorem addEntry_shorter (hi : 3 ≤ i) (hpos : pos + i < s.cur.length)
    (hnext : nextAt i pos s = some next) (hadd : addEntry key i pos next s = some s')
    (hlen : s'.list.length ≠ 256) : s'.cur.length < s.cur.length := by
  have hfind : ((s.cur.drop pos).take i).length = i := by
    rw [List.length_take, List.length_drop]
    omega
  unfold addEntry at hadd
  simp only at hadd
  generalize (if s.list.length = key.toNat then s.list ++ [[key, key]] else s.list) = list at *
  split_ifs at hadd with h₁ h₂
  · rw [← Option.some.inj hadd] at hlen
    exact absurd (by rw [List.length_append, List.length_singleton, h₂]) hlen
  · have hrest := (@replaceRest_replaced _ (markOf key list.length) (s.cur.drop (pos + i)).length
      _ _ hnext).length_le (by rw [hfind]; exact Nat.le_trans (Nat.le_succ 2) hi)
    rw [← Option.some.inj hadd]
    simp only [List.length_append, List.length_take, List.length_cons, List.length_nil]
    rw [List.length_drop] at hrest
    simp only [markOf, List.length_drop] at hrest ⊢
    omega

/-- **The invariant of the loops**: a dictionary is built, and a full one is met at the first
position only. -/
theorem Visits.spec (h : Visits data i pos s) : 3 ≤ i ∧ i ≤ 255 ∧
    Built (phase2Start data).1 (phase2Start data).2 s.list s.cur ∧
    (s.list.length = 256 → pos = 0) := by
  induction h with
  | start => exact ⟨by decide, by decide, Built.nil, fun _ => rfl⟩
  | skip _ _ _ hlen ih => exact ⟨ih.1, ih.2.1, ih.2.2.1, fun h => absurd h hlen⟩
  | add _ hpos hnext hadd hlen ih =>
    obtain ⟨hlo, hhi, hb, -⟩ := ih
    refine ⟨hlo, hhi, ?_, fun h => absurd h hlen⟩
    exact addEntry_built hb hpos ⟨hlo, Nat.lt_succ_of_le hhi⟩ hnext hadd
  | fill _ hpos hnext hadd _ hi ih =>
    obtain ⟨hlo, hhi, hb, -⟩ := ih
    refine ⟨by omega, by omega, ?_, fun _ => rfl⟩
    exact addEntry_built hb hpos ⟨hlo, Nat.lt_succ_of_le hhi⟩ hnext hadd
  | full _ _ _ _ hi ih => exact ⟨by omega, by omega, ih.2.2.1, fun _ => rfl⟩
  | shorter _ _ hi ih => exact ⟨by omega, by omega, ih.2.2.1, fun _ => rfl⟩

/-! ## The loops of the model -/

/-- One length of the loop over the lengths. -/
theorem searchLen_round (hi : 3 < i) (s : Dict) : searchLen key (i - 3) s =
    (searchPos key (i - 1) (s.cur.length + 1) 0 s).bind (searchLen key (i - 1 - 3)) := by
  obtain ⟨m, rfl⟩ := Nat.exists_eq_add_of_lt hi
  rw [show 3 + m + 1 - 3 = m + 1 by omega, show 3 + m + 1 - 1 = m + 3 by omega, searchLen,
    Nat.add_sub_cancel]
  cases searchPos key (m + 3) (s.cur.length + 1) 0 s <;> rfl

/-- What `phase2` still does in a state that it goes through. -/
theorem Visits.resume (h : Visits data i pos s) : ∃ n, s.cur.length < pos + n ∧
    phase2Search data = (searchPos (phase2Start data).1 i n pos s).bind
      (searchLen (phase2Start data).1 (i - 3)) := by
  have hround : ∀ {i : Nat} {s : Dict}, 3 < i →
      phase2Search data = searchLen (phase2Start data).1 (i - 3) s →
        ∃ n, s.cur.length < 0 + n ∧ phase2Search data =
          (searchPos (phase2Start data).1 (i - 1) n 0 s).bind
            (searchLen (phase2Start data).1 (i - 1 - 3)) :=
    fun hi hrun => ⟨_, by omega, hrun.trans (searchLen_round hi _)⟩
  induction h with
  | start => exact ⟨_, by omega, @searchLen_round (phase2Start data).1 256 (by decide) _⟩
  | skip _ hpos hnext hlen ih =>
    obtain ⟨n, hn, hrun⟩ := ih
    obtain ⟨n, rfl⟩ := Nat.exists_eq_succ_of_ne_zero (n := n) (by omega)
    unfold nextAt at hnext
    rw [searchPos, if_pos hpos, hnext] at hrun
    simp only [if_neg hlen] at hrun
    exact ⟨n, by omega, hrun⟩
  | add hv hpos hnext hadd hlen ih =>
    have hshort := addEntry_shorter hv.spec.1 hpos hnext hadd hlen
    obtain ⟨n, hn, hrun⟩ := ih
    obtain ⟨n, rfl⟩ := Nat.exists_eq_succ_of_ne_zero (n := n) (by omega)
    unfold nextAt at hnext
    rw [searchPos, if_pos hpos, hnext] at hrun
    simp only [hadd, if_neg hlen] at hrun
    exact ⟨n, by omega, hrun⟩
  | fill _ hpos hnext hadd hlen hi ih =>
    obtain ⟨n, hn, hrun⟩ := ih
    obtain ⟨n, rfl⟩ := Nat.exists_eq_succ_of_ne_zero (n := n) (by omega)
    unfold nextAt at hnext
    rw [searchPos, if_pos hpos, hnext] at hrun
    simp only [hadd, if_pos hlen] at hrun
    exact hround hi hrun
  | full _ hpos hnext hlen hi ih =>
    obtain ⟨n, hn, hrun⟩ := ih
    obtain ⟨n, rfl⟩ := Nat.exists_eq_succ_of_ne_zero (n := n) (by omega)
    unfold nextAt at hnext
    rw [searchPos, if_pos hpos, hnext] at hrun
    simp only [if_pos hlen] at hrun
    exact hround hi hrun
  | shorter _ hpos hi ih =>
    obtain ⟨n, hn, hrun⟩ := ih
    have hend : ∀ {m pos : Nat} {s : Dict}, s.cur.length ≤ pos + m →
        searchPos (phase2Start data).1 m n pos s = some s := by
      intro m pos s hpos
      cases n with
      | zero => rfl
      | succ n => rw [searchPos, if_neg (Nat.not_lt.mpr hpos)]
    rw [hend hpos] at hrun
    exact hround hi hrun

/-- The loop over the positions fails at an entry, or goes on with a shorter length. -/
theorem searchPos_visits : ∀ {n pos : Nat} {s : Dict}, Visits data i pos s →
    s.cur.length < pos + n → InBounds data →
      ∃ s', searchPos (phase2Start data).1 i n pos s = some s' ∧
        (3 < i → Visits data (i - 1) 0 s') := by
  intro n
  induction n with
  | zero =>
    intro pos s hv hn _
    exact ⟨s, rfl, hv.shorter (by omega)⟩
  | succ n ih =>
    intro pos s hv hn hin
    rw [searchPos]
    by_cases hpos : pos + i < s.cur.length
    · rw [if_pos hpos]
      cases hnext : nextAt i pos s with
      | none =>
        have hfind := hnext
        unfold nextAt at hfind
        simp only [hfind]
        by_cases hlen : s.list.length = 256
        · rw [if_pos hlen]
          exact ⟨s, rfl, hv.full hpos hnext hlen⟩
        · rw [if_neg hlen]
          exact ih (hv.skip hpos hnext hlen) (by omega) hin
      | some next =>
        have hfind := hnext
        unfold nextAt at hfind
        simp only [hfind]
        have hindex := hin i pos next s hv hpos hnext
        cases hadd : addEntry (phase2Start data).1 i pos next s with
        | none => exact absurd (addEntry_eq_none_iff.mp hadd) (Nat.not_le.mpr hindex)
        | some s' =>
          simp only
          by_cases hlen : s'.list.length = 256
          · rw [if_pos hlen]
            exact ⟨s', rfl, hv.fill hpos hnext hadd hlen⟩
          · rw [if_neg hlen]
            have hshort := addEntry_shorter hv.spec.1 hpos hnext hadd hlen
            exact ih (hv.add hpos hnext hadd hlen) (by omega) hin
    · rw [if_neg hpos]
      exact ⟨s, rfl, hv.shorter (Nat.not_lt.mp hpos)⟩

theorem searchLen_visits (hin : InBounds data) : ∀ {n : Nat} {s : Dict}, Visits data (n + 3) 0 s →
    ∃ s', searchLen (phase2Start data).1 (n + 1) s = some s' := by
  intro n
  induction n with
  | zero =>
    intro s hv
    obtain ⟨s', hrun, -⟩ := searchPos_visits (n := s.cur.length + 1) hv (by omega) hin
    exact ⟨s', by rw [searchLen, hrun]; rfl⟩
  | succ n ih =>
    intro s hv
    obtain ⟨s', hrun, hnext⟩ := searchPos_visits (n := s.cur.length + 1) hv (by omega) hin
    rw [searchLen, hrun]
    exact ih (hnext (by omega))

/-- **`phase2` fails where `Phase2` leaves `DataList`.** -/
theorem phase2_eq_none_iff : phase2 data = none ↔ ¬InBounds data := by
  rw [phase2, Option.map_eq_none_iff]
  constructor
  · intro hnone hin
    obtain ⟨s', hrun⟩ := searchLen_visits hin Visits.start
    exact nomatch hnone.symm.trans hrun
  · intro hout
    by_contra hsome
    refine hout fun i pos next s hv hpos hnext => ?_
    by_contra hindex
    refine hsome ?_
    obtain ⟨n, hn, hrun⟩ := hv.resume
    obtain ⟨n, rfl⟩ := Nat.exists_eq_succ_of_ne_zero (n := n) (by omega)
    have hadd := (@addEntry_eq_none_iff _ i pos next _).mpr (Nat.not_lt.mp hindex)
    unfold nextAt at hnext
    rw [hrun, searchPos, if_pos hpos, hnext]
    simp only [hadd]
    rfl

/-! ## When the dictionary is in its bounds -/

/-- No length begins with a full dictionary and finds the front of the data again, and with a key
of 255 nothing is found with 255 entries. -/
structure Spared (data : List Byte) : Prop where
  front : ∀ i s, Visits data i 0 s → s.list.length = 256 → i < s.cur.length → nextAt i 0 s = none
  last : (phase2Start data).1 = 0xff → ∀ i pos s, Visits data i pos s → s.list.length = 255 →
    pos + i < s.cur.length → nextAt i pos s = none

/-- **The dictionary is in its bounds in the runs that are spared, and in no other.** -/
theorem inBounds_iff (data : List Byte) : InBounds data ↔ Spared data := by
  constructor
  · intro hin
    constructor
    · intro i s hv hlen hpos
      by_contra hsome
      obtain ⟨next, hnext⟩ := Option.ne_none_iff_exists'.mp hsome
      have hindex := hin i 0 next s hv (by omega) hnext
      have hkey := (phase2Start data).1.isLt
      rw [entryIndex, if_neg (by omega)] at hindex
      omega
    · intro hkey i pos s hv hlen hpos
      by_contra hsome
      obtain ⟨next, hnext⟩ := Option.ne_none_iff_exists'.mp hsome
      have hindex := hin i pos next s hv hpos hnext
      rw [entryIndex, if_pos (by rw [hlen, hkey]; rfl)] at hindex
      omega
  · intro hspared i pos next s hv hpos hnext
    obtain ⟨-, -, hb, hfirst⟩ := hv.spec
    have hle := hb.length_le
    rcases Nat.lt_or_ge s.list.length 255 with hlt | hge
    · unfold entryIndex
      split_ifs <;> omega
    · rcases Nat.eq_or_lt_of_le hge with heq | hlt
      · unfold entryIndex
        split_ifs with hkey
        · have hff : (phase2Start data).1 = 0xff :=
            BitVec.eq_of_toNat_eq (hkey.symm.trans heq.symm)
          exact nomatch hnext.symm.trans (hspared.last hff i pos s hv heq.symm hpos)
        · omega
      · have hlen : s.list.length = 256 := by omega
        obtain rfl := hfirst hlen
        exact nomatch hnext.symm.trans (hspared.front i s hv hlen (by omega))

end Quals2017.Liberty
