import Mathlib.Data.List.Chain
import Mathlib.Data.List.GetD
import Quals2017.Liberty.DictBounds

/-!
# An input for which `Phase2` leaves its dictionary

256 words of three bytes, each of them twice, before all bytes but 255 and 0. Nothing longer than
three bytes occurs again, so the words become the entries in their order, and 255 is the key: the
last word finds `DataList` full.

* `placed_start`: which positions the bytes of a window allow.
* `visits_word`: one word is replaced.
* **`phase1_overruns`**: `Phase2` goes behind the end for what `Phase1` makes of these bytes.
-/

namespace Quals2017.Liberty

open Quals2017.Lib.Stretch

/-! ## Searching for bytes -/

/-- What `memfind` finds begins with what it looks for. -/
theorem memfind_begins {find : List Byte} : ∀ {buf : List Byte} {p : Nat},
    memfind buf find = some p → find <+: buf.drop p := by
  intro buf
  induction buf with
  | nil => exact fun h => nomatch h
  | cons b buf ih =>
    intro p h
    have hlater : (memfind buf find).map (· + 1) = some p → find <+: (b :: buf).drop p := by
      intro hmap
      obtain ⟨q, hq, rfl⟩ := Option.map_eq_some_iff.mp hmap
      exact ih hq
    rw [memfind] at h
    split_ifs at h with h₁ h₂ h₃
    · rw [← Option.some.inj h]
      exact List.prefix_iff_eq_take.mpr h₃.symm
    · exact hlater h
    · exact hlater h

/-- A byte that does not occur. -/
theorem memfind_of_notMem {buf find : List Byte} {a : Byte} (ha : a ∈ find) (hbuf : a ∉ buf) :
    memfind buf find = none := by
  by_contra hsome
  obtain ⟨p, hp⟩ := Option.ne_none_iff_exists'.mp hsome
  exact hbuf (List.mem_of_mem_drop ((memfind_begins hp).subset ha))

theorem memfind_front {a : Byte} {find rest : List Byte} :
    memfind (a :: find ++ rest) (a :: find) = some 0 := by
  have hlen : ¬(find ++ rest).length + 1 < (a :: find).length := by
    rw [List.length_append, List.length_cons]
    omega
  have hhead : (a :: find).head? = some a := rfl
  have htake : (a :: (find ++ rest)).take (a :: find).length = a :: find := by
    rw [← List.cons_append, List.take_left]
  rw [List.cons_append, memfind, if_pos hhead, if_neg hlen, if_pos htake]

/-! ## The words -/

namespace Overrun

/-- The word with the number `n`. -/
def word (n : Nat) : List Byte :=
  [BitVec.ofNat 8 (16 + n / 16), BitVec.ofNat 8 (32 + n % 16), if n = 255 then 0xfd else 0xfe]

/-- The last `m` words, each of them twice, and the bytes from 254 down to 1. -/
def blocks : Nat → List Byte
  | 0 => (List.range 254).map fun k => BitVec.ofNat 8 (254 - k)
  | m + 1 => word (255 - m) ++ word (255 - m) ++ blocks m

/-- The data of `Phase2`, with the 0 that `Phase1` has as its key. -/
def start : List Byte := 0 :: 0 :: blocks 256

/-- The number of the word that two bytes begin. -/
def number (a b : Byte) : Option Nat :=
  if 16 ≤ a.toNat ∧ a.toNat < 32 ∧ 32 ≤ b.toNat ∧ b.toNat < 48 then
    some (16 * (a.toNat - 16) + (b.toNat - 32))
  else none

/-- Where the data has the window that a list begins with, or three bytes behind that. -/
def placeOf : List Byte → Option Nat
  | a :: b :: rest =>
    (number a b).map (2 + 6 * ·) <|> match rest with
      | c :: d :: _ =>
        (number b c).map (1 + 6 * ·) <|> (number c d).map (6 * ·) <|> some (1789 - d.toNat)
      | _ => none
  | _ => none

/-- All windows of a list are where they belong. -/
def placed : Nat → List Byte → Bool
  | _, [] => true
  | p, a :: l => (placeOf (a :: l)).all (fun k => k ≤ p && p ≤ k + 3) && placed (p + 1) l

theorem placed_spec {l : List Byte} : ∀ {p : Nat}, placed p l = true → ∀ {q k : Nat},
    placeOf (l.drop q) = some k → k ≤ p + q ∧ p + q ≤ k + 3 := by
  induction l with
  | nil =>
    intro p _ q k hk
    rw [List.drop_nil] at hk
    exact nomatch hk
  | cons a l ih =>
    intro p h q k hk
    obtain ⟨hfirst, hrest⟩ := (Bool.and_eq_true _ _).mp h
    cases q with
    | zero =>
      rw [List.drop_zero] at hk
      rw [hk, Option.all_some, Bool.and_eq_true] at hfirst
      exact ⟨of_decide_eq_true hfirst.1, of_decide_eq_true hfirst.2⟩
    | succ q =>
      have hlater := ih hrest hk
      omega

/-- Only the first four bytes count. -/
theorem placeOf_append {x : List Byte} (y : List Byte) (hx : 4 ≤ x.length) :
    placeOf (x ++ y) = placeOf x ∧ (placeOf x).isSome := by
  match x, hx with
  | a :: b :: c :: d :: x, _ =>
    refine ⟨rfl, ?_⟩
    simp only [placeOf]
    cases number a b with
    | some m => rfl
    | none =>
      cases number b c with
      | some m => rfl
      | none => cases number c d <;> rfl

/-- The windows of the data. -/
theorem placed_start : placed 0 start = true := by
  decide +kernel

theorem start_place {q k : Nat} (h : placeOf (start.drop q) = some k) : k ≤ q ∧ q ≤ k + 3 := by
  have hplace := placed_spec placed_start h
  omega

/-- No byte of the words is 0 or 255. -/
theorem blocks_bytes : ∀ b ∈ blocks 256, b ≠ 0 ∧ b ≠ 0xff := by
  have hall : (blocks 256).all (fun b => b ≠ 0 ∧ b ≠ 0xff) = true := by decide +kernel
  exact fun b hb => of_decide_eq_true (List.all_eq_true.mp hall b hb)

theorem word_number {n : Nat} (hn : n < 256) :
    number (BitVec.ofNat 8 (16 + n / 16)) (BitVec.ofNat 8 (32 + n % 16)) = some n := by
  have hhi : (BitVec.ofNat 8 (16 + n / 16)).toNat = 16 + n / 16 := toNat_mark (by omega)
  have hlo : (BitVec.ofNat 8 (32 + n % 16)).toNat = 32 + n % 16 := toNat_mark (by omega)
  rw [number, hhi, hlo, if_pos (by omega)]
  exact congrArg some (by omega)

/-- A word is where it belongs. -/
theorem word_place {n q : Nat} (hn : n < 256)
    (h : [BitVec.ofNat 8 (16 + n / 16), BitVec.ofNat 8 (32 + n % 16)] <+: start.drop q) :
    2 + 6 * n ≤ q ∧ q ≤ 5 + 6 * n := by
  obtain ⟨rest, hrest⟩ := h
  refine (start_place (k := 2 + 6 * n) ?_).imp id fun h => by omega
  rw [← hrest]
  simp only [List.cons_append, placeOf, word_number hn]
  rfl

/-- The words from the one with the number `n` on. -/
theorem drop_start {n : Nat} (hn : n ≤ 256) : start.drop (2 + 6 * n) = blocks (256 - n) := by
  induction n with
  | zero => rfl
  | succ n ih =>
    have hcur := ih (Nat.le_of_succ_le hn)
    rw [show 256 - n = 256 - (n + 1) + 1 by omega, blocks] at hcur
    rw [show 2 + 6 * (n + 1) = 2 + 6 * n + 6 by omega, ← List.drop_drop, hcur]
    rfl

/-- All bytes but 255 are in the data. -/
theorem mem_start {b : Byte} (hb : b ≠ 0xff) : b ∈ start := by
  have hlt := b.isLt
  have hff : b.toNat ≠ 255 := fun h => hb (BitVec.eq_of_toNat_eq h)
  by_cases hzero : b.toNat = 0
  · rw [BitVec.eq_of_toNat_eq (y := 0) hzero]
    exact List.mem_cons_self
  · refine List.mem_of_mem_drop (i := 2 + 6 * 256) ?_
    rw [drop_start (Nat.le_refl 256)]
    refine List.mem_map.mpr ⟨254 - b.toNat, List.mem_range.mpr (by omega), ?_⟩
    rw [show 254 - (254 - b.toNat) = b.toNat by omega, BitVec.ofNat_toNat, BitVec.setWidth_eq]

/-- Nothing longer than three bytes occurs again. -/
theorem nextAt_start {i pos : Nat} {list : List (List Byte)} (hi : 3 < i)
    (hpos : pos + i < start.length) : nextAt i pos ⟨list, start⟩ = none := by
  by_contra hsome
  obtain ⟨next, hnext⟩ := Option.ne_none_iff_exists'.mp hsome
  have hfind : 4 ≤ ((start.drop pos).take i).length := by
    rw [List.length_take, List.length_drop]
    omega
  have hpre := memfind_begins hnext
  rw [List.drop_drop] at hpre
  obtain ⟨rest, hrest⟩ := hpre
  obtain ⟨hagain, hplace⟩ := placeOf_append rest hfind
  obtain ⟨k, hk⟩ := Option.isSome_iff_exists.mp hplace
  have hfirst := (placeOf_append ((start.drop pos).drop i) hfind).1
  rw [List.take_append_drop] at hfirst
  have h₁ := start_place (hfirst.trans hk)
  have h₂ := start_place ((congrArg placeOf hrest).symm.trans (hagain.trans hk))
  omega

/-! ## The run -/

/-- The marks of the first `n` words. -/
def marks (n : Nat) : List Byte :=
  (List.range n).flatMap fun k => markOf 0xff k ++ markOf 0xff k

/-- The dictionary after the first `n` words. -/
def after (n : Nat) : Dict :=
  ⟨(List.range n).map word, 0 :: 0 :: marks n ++ blocks (256 - n)⟩

theorem marks_length (n : Nat) : (marks n).length = 4 * n := by
  induction n with
  | zero => rfl
  | succ n ih =>
    rw [marks, List.range_succ, List.flatMap_append, List.length_append]
    exact congrArg (· + 4) ih

theorem marks_succ (n : Nat) : marks (n + 1) = marks n ++ (markOf 0xff n ++ markOf 0xff n) := by
  rw [marks, List.range_succ, List.flatMap_append]
  simp [marks]

theorem after_length (n : Nat) : (after n).list.length = n := by
  simp [after]

/-- Where the first word behind the marks is. -/
theorem front_length (n : Nat) : (0 :: 0 :: marks n).length = 2 + 4 * n := by
  rw [List.length_cons, List.length_cons, marks_length]
  omega

theorem drop_after (n : Nat) : (after n).cur.drop (2 + 4 * n) = blocks (256 - n) := by
  rw [after, ← front_length]
  exact List.drop_left

/-- What is behind the marks is as long as the rest of the bytes at least. -/
theorem blocks_length (m : Nat) : (blocks m).length = 6 * m + 254 := by
  induction m with
  | zero => simp [blocks]
  | succ m ih =>
    rw [blocks, List.length_append, ih]
    simp [word]
    omega

/-- The next word, and the one behind it. -/
theorem blocks_word {n : Nat} (hn : n < 256) :
    blocks (256 - n) = word n ++ (word n ++ blocks (256 - (n + 1))) := by
  rw [show 256 - n = 256 - (n + 1) + 1 by omega, blocks, show 255 - (256 - (n + 1)) = n by omega,
    List.append_assoc]

/-- A word does not occur behind its place. -/
theorem memfind_word {n : Nat} (hn : n < 256) :
    memfind (blocks (256 - (n + 1))) (word n) = none := by
  by_contra hsome
  obtain ⟨p, hp⟩ := Option.ne_none_iff_exists'.mp hsome
  have hpre := memfind_begins hp
  rw [← drop_start (by omega), List.drop_drop] at hpre
  have hplace := word_place hn ((List.prefix_append _ [_]).trans hpre)
  omega

/-- Nor does it with the byte before it, unless it ends with that byte. -/
theorem memfind_behind {n : Nat} (hn : n < 255) : memfind ((blocks (256 - (n + 1))).drop 2)
    (BitVec.ofNat 8 n :: (word (n + 1)).take 2) = none := by
  by_contra hsome
  obtain ⟨p, hp⟩ := Option.ne_none_iff_exists'.mp hsome
  have hpre := memfind_begins hp
  have hbehind : (word (n + 1)).take 2 <+: start.drop (2 + 6 * (n + 1) + 2 + p + 1) := by
    rw [← drop_start (by omega), List.drop_drop, List.drop_drop] at hpre
    obtain ⟨rest, hrest⟩ := hpre
    exact ⟨rest, by rw [← List.drop_drop, Nat.add_assoc _ 2, ← hrest]; rfl⟩
  have hplace := word_place (by omega) hbehind
  obtain rfl : p = 0 := by omega
  rw [List.drop_zero, blocks_word (by omega)] at hpre
  have hend := (List.cons_prefix_cons.mp hpre).1
  split_ifs at hend with hlast
  · obtain rfl : n = 254 := by omega
    exact absurd hend (by decide)
  · have hat : n = 0xfe := (toNat_mark (by omega)).symm.trans (congrArg BitVec.toNat hend)
    omega

/-- The word behind the marks occurs again at once. -/
theorem nextAt_word {n : Nat} (hn : n < 256) : nextAt 3 (2 + 4 * n) (after n) = some 0 := by
  rw [nextAt, ← List.drop_drop, drop_after, blocks_word hn]
  exact memfind_front

/-- **A word becomes an entry.** -/
theorem addEntry_after {n : Nat} (hn : n < 255) :
    addEntry 0xff 3 (2 + 4 * n) 0 (after n) = some (after (n + 1)) := by
  have hcur := drop_after n
  have htake : (after n).cur.take (2 + 4 * n) = 0 :: 0 :: marks n := by
    rw [after, ← front_length]
    exact List.take_left
  have hrest : (after n).cur.drop (2 + 4 * n + 3) = word n ++ blocks (256 - (n + 1)) := by
    rw [← List.drop_drop, hcur, blocks_word (by omega)]
    rfl
  have hfind : (blocks (256 - n)).take 3 = word n := by
    rw [blocks_word (by omega)]
    rfl
  have hreplace : ∀ m, replaceRest (word n) (markOf 0xff n) (m + 1)
      (word n ++ blocks (256 - (n + 1))) 0 = markOf 0xff n ++ blocks (256 - (n + 1)) := by
    intro m
    have hdrop : (word n ++ blocks (256 - (n + 1))).drop (0 + (word n).length) =
        blocks (256 - (n + 1)) := by rw [Nat.zero_add, List.drop_left]
    rw [replaceRest, hdrop]
    simp only [memfind_word (show n < 256 by omega), List.take_zero, List.nil_append]
  have hkey : ¬n = (0xff : Byte).toNat := Nat.ne_of_lt hn
  unfold addEntry
  simp only [after_length, if_neg hkey]
  rw [if_neg (by omega), if_neg (by omega), hcur, htake, hrest, hfind]
  have hmark : [(0xff : Byte), BitVec.ofNat 8 n] = markOf 0xff n := rfl
  rw [hmark, show (word n ++ blocks (256 - (n + 1))).length =
    (word n ++ blocks (256 - (n + 1))).length - 1 + 1 by simp [word], hreplace]
  refine congrArg some (congrArg₂ Dict.mk ?_ ?_)
  · rw [after, List.range_succ, List.map_append]
    rfl
  · simp [marks_succ]

theorem after_cur_length {n : Nat} (hn : n ≤ 256) : (after n).cur.length = 1792 - 2 * n := by
  simp only [after, List.cons_append, List.length_cons, List.length_append, marks_length,
    blocks_length]
  omega

theorem drop_marks (n : Nat) : (after (n + 1)).cur.drop (2 + 4 * n) =
    0xff :: BitVec.ofNat 8 n :: 0xff :: BitVec.ofNat 8 n :: blocks (256 - (n + 1)) := by
  have hcur : (after (n + 1)).cur = (0 :: 0 :: marks n) ++
      (0xff :: BitVec.ofNat 8 n :: 0xff :: BitVec.ofNat 8 n :: blocks (256 - (n + 1))) := by
    simp [after, marks_succ, markOf]
  rw [hcur, ← front_length, List.drop_left]

theorem notMem_blocks {n : Nat} (hn : n ≤ 256) : 0xff ∉ blocks (256 - n) := by
  intro hmem
  rw [← drop_start hn] at hmem
  have hstart : 0xff ∈ (0 :: 0 :: blocks 256 : List Byte) := List.mem_of_mem_drop hmem
  rcases List.mem_cons.mp hstart with h | h
  · exact absurd h (by decide)
  · rcases List.mem_cons.mp h with h | h
    · exact absurd h (by decide)
    · exact (blocks_bytes _ h).2 rfl

/-- Nothing of the two marks of a word occurs again. -/
theorem nextAt_marks {n j : Nat} (hn : n < 255) (hj : j < 4) :
    nextAt 3 (2 + 4 * n + j) (after (n + 1)) = none := by
  have hnot := notMem_blocks (show n + 1 ≤ 256 by omega)
  have hne : (0xff : Byte) ≠ BitVec.ofNat 8 n := by
    intro heq
    have hat : (BitVec.ofNat 8 n).toNat = n := toNat_mark (by omega)
    rw [← heq] at hat
    exact absurd hat (Nat.ne_of_gt hn)
  rw [nextAt, Nat.add_assoc, ← List.drop_drop, ← List.drop_drop (i := j), drop_marks]
  have hcases : j = 0 ∨ j = 1 ∨ j = 2 ∨ j = 3 := by omega
  rcases hcases with rfl | rfl | rfl | rfl
  · refine memfind_of_notMem List.mem_cons_self fun hmem => ?_
    exact (List.mem_cons.mp hmem).elim hne hnot
  · exact memfind_of_notMem (List.mem_cons_of_mem _ List.mem_cons_self) hnot
  · exact memfind_of_notMem List.mem_cons_self fun hmem => hnot (List.mem_of_mem_drop hmem)
  · have hfind := memfind_behind hn
    rw [blocks_word (by omega)] at hfind ⊢
    exact hfind

/-! ## The overrun -/

variable {data : List Byte}

/-- The loop over the positions goes over the bytes that do not occur again. -/
theorem visits_skip {i pos : Nat} {s : Dict} (hlen : s.list.length ≠ 256) : ∀ {m : Nat},
    Visits data i pos s → (∀ j, j < m → pos + j + i < s.cur.length ∧ nextAt i (pos + j) s = none) →
      Visits data i (pos + m) s := by
  intro m
  induction m with
  | zero => exact fun hv _ => hv
  | succ m ih =>
    intro hv hnone
    obtain ⟨hpos, hnext⟩ := hnone m (Nat.lt_succ_self m)
    exact (ih hv fun j hj => hnone j (Nat.lt_succ_of_lt hj)).skip hpos hnext hlen

/-- All lengths above 3 find nothing. -/
theorem visits_start (hstart : (phase2Start data).2 = start) :
    ∀ {d : Nat}, d ≤ 252 → Visits data (255 - d) 0 (after 0) := by
  have hlen : start.length = 1792 := after_cur_length (Nat.zero_le 256)
  intro d
  induction d with
  | zero =>
    intro _
    have hv := @Visits.start data
    rw [hstart] at hv
    exact hv
  | succ d ih =>
    intro hd
    have hv := @visits_skip data (255 - d) 0 (after 0) (by decide) (1792 - (255 - d))
      (ih (Nat.le_of_succ_le hd)) fun j hj => ?_
    · refine hv.shorter ?_ (by omega)
      rw [after_cur_length (Nat.zero_le 256)]
      omega
    · rw [after_cur_length (Nat.zero_le 256)]
      exact ⟨by omega, nextAt_start (by omega) (by omega)⟩

/-- **One word is replaced.** -/
theorem visits_word (hkey : (phase2Start data).1 = 0xff) {n : Nat} (hn : n < 255)
    (hv : Visits data 3 (2 + 4 * n) (after n)) :
    Visits data 3 (2 + 4 * (n + 1)) (after (n + 1)) := by
  have hadd := addEntry_after hn
  rw [← hkey] at hadd
  have hlen : (after (n + 1)).list.length ≠ 256 := by
    rw [after_length]
    omega
  have hlong := after_cur_length (show n + 1 ≤ 256 by omega)
  have hv' := hv.add (by rw [after_cur_length (by omega)]; omega) (nextAt_word (by omega)) hadd hlen
  exact @visits_skip data 3 (2 + 4 * n) _ hlen 4 hv' fun j hj => ⟨by omega, nextAt_marks hn hj⟩

/-- The run reaches each of the words. -/
theorem visits_words (h : phase2Start data = (0xff, start)) : ∀ {n : Nat}, n ≤ 255 →
    Visits data 3 (2 + 4 * n) (after n) := by
  have hkey : (phase2Start data).1 = 0xff := congrArg Prod.fst h
  intro n
  induction n with
  | zero =>
    intro _
    have hv := visits_start (congrArg Prod.snd h) (Nat.le_refl 252)
    refine @visits_skip data 3 0 (after 0) (by decide) 2 hv fun j hj => ⟨?_, ?_⟩
    · rw [after_cur_length (Nat.zero_le 256)]
      omega
    · have hnot : (0 : Byte) ∉ blocks 256 := fun hmem => (blocks_bytes 0 hmem).1 rfl
      have hcases : j = 0 ∨ j = 1 := by omega
      rcases hcases with rfl | rfl
      · exact memfind_of_notMem List.mem_cons_self fun hmem => hnot (List.mem_of_mem_drop hmem)
      · exact memfind_of_notMem List.mem_cons_self fun hmem => hnot (List.mem_of_mem_drop hmem)
  | succ n ih => exact fun hn => visits_word hkey hn (ih (Nat.le_of_succ_le hn))

/-- What `Phase2` starts with. -/
theorem phase2Start_blocks : phase2Start (0 :: blocks 256) = (0xff, start) := by
  have hnot : (0xff : Byte) ∉ (0 :: 0 :: blocks 256 : List Byte) := by
    have hdrop := notMem_blocks (Nat.zero_le 256)
    simpa using hdrop
  obtain ⟨hkey, -, -⟩ := findBestChar_of_notMem hnot (List.cons_ne_nil _ _)
  have hff : (findBestChar (0 :: 0 :: blocks 256) 0x100).1 = 0xff := by
    by_contra hne
    refine hkey (mem_start hne)
  rw [phase2Start, hff, escape_start hnot]
  rfl

/-! ## The input -/

/-- The bytes that are compressed. -/
def input (p : Nat) : Byte := (blocks 256).getD p 0

theorem stretch_input : stretch input 0 1790 = blocks 256 := by
  have hlen : (blocks 256).length = 1790 := blocks_length 256
  refine (congrArg (stretch input 0) hlen.symm).trans (stretch_list _ _ fun k hk => ?_)
  rw [input, Nat.zero_add, List.getD_eq_getElem _ _ hk]

/-- No two bytes in a row are the same. -/
theorem blocks_apart : (blocks 256).IsChain (· ≠ ·) := by
  decide +kernel

/-- `Phase1` where there is no run, and no byte that it has to escape. -/
theorem phase1Loop_plain {data : Nat → Byte} {len : Nat} {key : Byte}
    (hrun : ∀ i, i < len → ¬runAt data len i) (hkey : ∀ i, i < len → data i ≠ key) :
    ∀ {n i : Nat}, len ≤ i + n → phase1Loop data len key n i = stretch data i (len - i) := by
  intro n
  induction n with
  | zero =>
    intro i hi
    rw [Nat.sub_eq_zero_of_le (Nat.add_zero i ▸ hi)]
    rfl
  | succ n ih =>
    intro i hi
    rw [phase1Loop]
    by_cases hlt : i < len
    · rw [if_pos hlt, if_neg (hrun i hlt), if_neg (hkey i hlt), ih (by omega),
        show len - i = len - (i + 1) + 1 by omega, stretch]
    · rw [if_neg hlt, Nat.sub_eq_zero_of_le (Nat.not_lt.mp hlt)]
      rfl

theorem phase1_input : phase1 input 1790 = 0 :: blocks 256 := by
  have hlen : (blocks 256).length = 1790 := blocks_length 256
  have hnot : (0 : Byte) ∉ blocks 256 := fun hmem => (blocks_bytes 0 hmem).1 rfl
  have hat : ∀ i (hi : i < (blocks 256).length), input i = (blocks 256)[i] := fun i hi =>
    List.getD_eq_getElem _ _ hi
  have hkey : (findBestChar (blocks 256) 0x100).1 = 0 := by
    obtain ⟨-, -, hle⟩ := findBestChar_of_notMem hnot (List.cons_ne_nil _ _)
    exact BitVec.eq_of_toNat_eq (Nat.le_zero.mp hle)
  rw [phase1, stretch_input, hkey]
  refine congrArg (List.cons 0) ((phase1Loop_plain ?_ ?_ (Nat.le_add_left _ _)).trans stretch_input)
  · rintro i hi ⟨hlt, hsame, -⟩
    have hnext : i + 1 < (blocks 256).length := by omega
    rw [hat i (Nat.lt_of_succ_lt hnext), hat (i + 1) hnext] at hsame
    exact List.isChain_iff_getElem.mp blocks_apart i hnext hsame
  · intro i hi heq
    rw [hat i (by omega)] at heq
    exact hnot (heq ▸ List.getElem_mem _)

end Overrun

open Overrun in
/-- **`Phase2` goes behind the end of `DataList`**: the last word takes the place of the dummy entry
of the key, 255, and the entry itself the place behind it. -/
theorem phase1_overruns : ¬∀ (data : Nat → Byte) (len : Nat),
    (phase1 data len).length ≤ bufferSize → InBounds (phase1 data len) := by
  intro hall
  have hlen : (blocks 256).length = 1790 := blocks_length 256
  have hin := hall input 1790 (by rw [phase1_input, List.length_cons, hlen]; decide)
  rw [phase1_input] at hin
  have hv := visits_words phase2Start_blocks (Nat.le_refl 255)
  have hindex := hin _ _ _ _ hv (by rw [after_cur_length (by decide)]; decide)
    (nextAt_word (by decide))
  rw [phase2Start_blocks, entryIndex, after_length] at hindex
  exact absurd hindex (by decide)

end Quals2017.Liberty
