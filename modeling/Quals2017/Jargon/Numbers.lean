import Quals2017.Jargon.Machine
import Quals2017.Lib.Digits

/-!
# Numbers in words (`jargon/jargon.c:11`, `:34-93`)

`IntToText` prints a word for each decimal digit. It counts the digits first; then it gets the
highest with one division less than there are digits, and takes what it is worth off the number.

* An `int` is an `Int` here. `int?` is the check of a signed result and `numName` that of an index
  of `NumNames`, so `none` is a run that C leaves undefined. `DigitCount` and `i` only count.
* `spoken` is what a number is in words.
* `digitLoop_eq`: the loop prints the digits from the highest place down. What carries it is that
  the number left over is below the power of ten of the digits left over.
* **`intToText_prints`**: `IntToText` prints a number in words, for every `int` but the least.
* `intToText_minValue`: for that one the negation overflows.
* `spoken_injective`: two numbers are never the same words.
* **`dieText_eq`**: what `die` prints for a state of the interpreter.
-/

namespace Quals2017.Jargon

open Quals2017.Lib.Digits

/-- `NumNames`. -/
def numNames : Vector String 10 :=
  #v["lightning", "fuzyll", "hoju", "gynophage", "hj", "selir", "sirgoon", "vito", "bja",
    "jymbolia"]

/-- What is printed, and the indices at which `NumNames` is read. -/
structure Printed where
  text : String
  indices : List Int
  deriving DecidableEq

/-- `printf` of a text. -/
def Printed.print (out : Printed) (text : String) : Printed := { out with text := out.text ++ text }

/-- A signed result, where it is an `int`. -/
def int? (v : Int) : Option Int := if -2 ^ 31 ≤ v ∧ v < 2 ^ 31 then some v else none

/-- `NumNames[i]`. -/
def numName (i : Int) : Option String := if 0 ≤ i then numNames[i.toNat]? else none

/-- `printf("%s ", NumNames[CurValue])`. -/
def printName (out : Printed) (curValue : Int) : Option Printed := do
  let name ← numName curValue
  some { text := out.text ++ (name ++ " "), indices := out.indices ++ [curValue] }

/-- `if(Value < 0)`: the word for it, and the number without its sign. -/
def printSign (value : Int) : Option (Int × Printed) :=
  if value < 0 then (int? (-value)).map fun value => (value, ⟨"rogue ", []⟩)
  else some (value, ⟨"", []⟩)

/-- `while(CurValue > 9)`, the loop that counts the digits. -/
def countLoop (curValue : Int) (digitCount : Nat) : Nat :=
  if 9 < curValue then countLoop (curValue.tdiv 10) (digitCount + 1) else digitCount
termination_by curValue.toNat
decreasing_by
  rw [Int.tdiv_eq_ediv_of_nonneg (by omega)]
  omega

/-- `CurValue /= 10`, this many times. -/
def divLoop : Nat → Int → Int
  | 0, curValue => curValue
  | rounds + 1, curValue => divLoop rounds (curValue.tdiv 10)

/-- `CurValue *= 10`, this many times. -/
def mulLoop : Nat → Int → Option Int
  | 0, curValue => some curValue
  | rounds + 1, curValue => do
    let curValue ← int? (curValue * 10)
    mulLoop rounds curValue

/-- `for(;DigitCount > 0; DigitCount--)`. The two loops from 1 to below `DigitCount` have a round
less than there are digits. -/
def digitLoop : Nat → Int → Printed → Option Printed
  | 0, _, out => some out
  | digitCount + 1, value, out => do
    let curValue := divLoop digitCount value
    let out ← printName out curValue
    let curValue ← mulLoop digitCount curValue
    let value ← int? (value - curValue)
    digitLoop digitCount value out

/-- `IntToText`. -/
def intToText (value doReturn : Int32) : Option Printed := do
  let (value, out) ← printSign value.toInt
  let out ← digitLoop (countLoop value 1) value out
  some (if doReturn ≠ 0 then out.print "\n" else out)

/-! ## What it should print -/

/-- The name of a digit. -/
def digitName (d : Nat) : String := numNames.toList.getD d ""

/-- A number in words: one for a minus sign, then the names of the digits. -/
def spoken (v : Int) : String :=
  (if v < 0 then "rogue " else "") ++
    String.join ((numeral 10 v.natAbs).map fun d => digitName d ++ " ")

/-! ## The loops -/

theorem int?_natCast {n : Nat} (h : n < 2 ^ 31) : int? n = some (n : Int) :=
  if_pos ⟨by omega, by exact_mod_cast h⟩

theorem numName_natCast {d : Nat} (h : d < 10) : numName d = some (digitName d) := by
  rw [numName, if_pos (Int.natCast_nonneg d), Int.toNat_natCast, digitName]
  interval_cases d <;> rfl

theorem tdiv_ten (n : Nat) : (n : Int).tdiv 10 = (n / 10 : Nat) := (Int.ofNat_tdiv n 10).symm

theorem countLoop_natCast (n digitCount : Nat) :
    countLoop n digitCount = Nat.log 10 n + digitCount := by
  induction n using Nat.strong_induction_on generalizing digitCount with
  | _ n ih =>
    rw [countLoop]
    by_cases h : n < 10
    · rw [if_neg (by omega), Nat.log_of_lt h, zero_add]
    · rw [if_pos (by omega), tdiv_ten, ih (n / 10) (by omega),
        Nat.log_of_one_lt_of_le (by decide) (Nat.not_lt.mp h)]
      omega

theorem divLoop_natCast : ∀ rounds n : Nat, divLoop rounds n = (n / 10 ^ rounds : Nat)
  | 0, n => by rw [divLoop, pow_zero, Nat.div_one]
  | rounds + 1, n => by
    rw [divLoop, tdiv_ten, divLoop_natCast rounds, Nat.div_div_eq_div_mul, pow_succ']

theorem mulLoop_natCast : ∀ {rounds d : Nat}, d * 10 ^ rounds < 2 ^ 31 →
    mulLoop rounds d = some ((d * 10 ^ rounds : Nat) : Int)
  | 0, d, _ => by rw [mulLoop, pow_zero, Nat.mul_one]
  | rounds + 1, d, h => by
    rw [pow_succ', ← Nat.mul_assoc] at h ⊢
    have hten : d * 10 < 2 ^ 31 :=
      Nat.lt_of_le_of_lt (Nat.le_mul_of_pos_right _ (Nat.pow_pos (by decide))) h
    rw [mulLoop, show (d : Int) * 10 = (d * 10 : Nat) from (Int.natCast_mul d 10).symm,
      int?_natCast hten]
    exact mulLoop_natCast h

/-- The text and the indices that a list of digits adds. -/
def Printed.names (out : Printed) (ds : List Nat) : Printed :=
  ⟨out.text ++ String.join (ds.map fun d => digitName d ++ " "), out.indices ++ ds.map Nat.cast⟩

theorem Printed.names_nil (out : Printed) : out.names [] = out := by
  simp [Printed.names]

theorem Printed.names_cons (out : Printed) (d : Nat) (ds : List Nat) :
    out.names (d :: ds) =
      Printed.names ⟨out.text ++ (digitName d ++ " "), out.indices ++ [(d : Int)]⟩ ds := by
  simp [Printed.names, String.append_assoc]

/-- **The loop over the digits**, for a number below the power of ten. -/
theorem digitLoop_eq : ∀ {digitCount n : Nat} (out : Printed), n < 10 ^ digitCount → n < 2 ^ 31 →
    digitLoop digitCount n out = some (out.names (fromTop 10 digitCount n))
  | 0, _, out, _, _ => by rw [digitLoop, fromTop, Printed.names_nil]
  | digitCount + 1, n, out, hn, hint => by
    have hd : n / 10 ^ digitCount < 10 := Nat.div_lt_of_lt_mul (by rwa [← pow_succ])
    have hworth : n / 10 ^ digitCount * 10 ^ digitCount ≤ n := Nat.div_mul_le_self _ _
    have hrest : (n : Int) - (n / 10 ^ digitCount * 10 ^ digitCount : Nat) =
        (n % 10 ^ digitCount : Nat) := by
      have := Nat.mod_add_div n (10 ^ digitCount)
      rw [Nat.mul_comm] at this
      omega
    have hmod : n % 10 ^ digitCount < 10 ^ digitCount := Nat.mod_lt n (Nat.pow_pos (by decide))
    have hsmall : n % 10 ^ digitCount < 2 ^ 31 := Nat.lt_of_le_of_lt (Nat.mod_le _ _) hint
    simp only [digitLoop, divLoop_natCast, printName, numName_natCast hd, Option.bind_eq_bind,
      Option.bind_some, mulLoop_natCast (Nat.lt_of_le_of_lt hworth hint), hrest,
      int?_natCast hsmall]
    rw [digitLoop_eq _ hmod hsmall, fromTop, Printed.names_cons]

/-- The digits of a number without a sign. -/
theorem digitLoop_countLoop (out : Printed) {n : Nat} (h : n < 2 ^ 31) :
    digitLoop (countLoop n 1) n out = some (out.names (numeral 10 n)) := by
  rw [countLoop_natCast, digitLoop_eq out (Nat.lt_pow_succ_log_self (by decide) n) h,
    fromTop_log (by decide)]

/-! ## `IntToText` -/

theorem printSign_eq {v : Int} (h : -2 ^ 31 < v) (h' : v < 2 ^ 31) :
    printSign v = some ((v.natAbs : Int), ⟨if v < 0 then "rogue " else "", []⟩) := by
  unfold printSign
  split_ifs with hneg
  · rw [show -v = (v.natAbs : Int) by omega, int?_natCast (by omega), Option.map_some]
  · rw [show v = (v.natAbs : Int) by omega, Int.natAbs_natCast]

/-- A number other than the least, on a line of its own or not. -/
theorem intToText_eq {value : Int32} (h : Int32.minValue < value) (doReturn : Int32) :
    intToText value doReturn =
      some ⟨spoken value.toInt ++ (if doReturn ≠ 0 then "\n" else ""),
        (numeral 10 value.toInt.natAbs).map Nat.cast⟩ := by
  have hlo : -2 ^ 31 < value.toInt := Int32.lt_iff_toInt_lt.mp h
  have hhi : value.toInt < 2 ^ 31 := value.toInt_lt
  rw [intToText, printSign_eq hlo hhi]
  simp only [Option.bind_eq_bind, Option.bind_some, digitLoop_countLoop _
    (show value.toInt.natAbs < 2 ^ 31 by omega), Printed.names, Printed.print, spoken]
  split_ifs <;> simp

/-- **`IntToText` prints the number in words**: the word for the sign exactly when the number is
negative, the digits from the highest down with no leading zeros, and it reads `NumNames` only
at the places of the ten names. -/
theorem intToText_prints {value : Int32} (h : Int32.minValue < value) (doReturn : Int32) :
    ∃ out, intToText value doReturn = some out ∧
      out.text = (if value < 0 then "rogue " else "") ++
        String.join ((numeral 10 value.toInt.natAbs).map fun d => digitName d ++ " ") ++
        (if doReturn ≠ 0 then "\n" else "") ∧
      out.indices = (numeral 10 value.toInt.natAbs).map Nat.cast ∧
      (value ≠ 0 → out.indices.head? ≠ some 0) ∧
      ∀ i ∈ out.indices, 0 ≤ i ∧ i ≤ 9 := by
  have hsign : value < 0 ↔ value.toInt < 0 := Int32.lt_iff_toInt_lt
  refine ⟨_, intToText_eq h doReturn, ?_, rfl, ?_, ?_⟩
  · simp only [spoken, hsign]
  · intro hne hhead
    have habs : value.toInt.natAbs ≠ 0 := fun h0 =>
      hne (Int32.toInt_inj.mp (Int.natAbs_eq_zero.mp h0))
    rw [List.head?_map, Option.map_eq_some_iff] at hhead
    obtain ⟨d, hd, hzero⟩ := hhead
    exact head_numeral habs (hd.trans (congrArg some (Int.natCast_eq_zero.mp hzero)))
  · intro i hi
    obtain ⟨d, hd, rfl⟩ := List.mem_map.mp hi
    have := numeral_lt (by decide) hd
    omega

/-- A number with a zero inside it. -/
theorem intToText_prints_inner_zero :
    Int32.minValue < (-207 : Int32) ∧ ∃ out, intToText (-207) 1 = some out ∧
      out.text = "rogue hoju lightning vito \n" ∧ out.indices = [2, 0, 7] := by
  have hlt : Int32.minValue < (-207 : Int32) := by decide
  have habs : ((-207 : Int32).toInt).natAbs = 207 := by decide
  have hdigits : numeral 10 207 = [2, 0, 7] := by simp [numeral]
  obtain ⟨out, hout, htext, hindices, -⟩ := intToText_prints hlt 1
  rw [habs, hdigits] at htext hindices
  exact ⟨hlt, out, hout, htext.trans (by decide), hindices⟩

/-- The least `int` has no negation. -/
theorem intToText_minValue (doReturn : Int32) : intToText Int32.minValue doReturn = none := by
  have hneg : printSign Int32.minValue.toInt = none := by decide
  rw [intToText, hneg]
  rfl

/-! ## The words say which number it is -/

/-- A text with a mark behind each word, and in none of them, is split at the marks. -/
theorem splitOn_flatMap {α : Type} [DecidableEq α] {mark : α} : ∀ {ws : List (List α)},
    (∀ w ∈ ws, mark ∉ w) → (ws.flatMap (· ++ [mark])).splitOn mark = ws ++ [[]]
  | [], _ => List.splitOn_nil mark
  | w :: ws, h => by
    obtain ⟨hw, hws⟩ := List.forall_mem_cons.mp h
    have hfree : ∀ x ∈ w, (x == mark) = false := fun x hx =>
      beq_eq_false_iff_ne.mpr fun heq => hw (heq ▸ hx)
    rw [List.flatMap_cons, List.append_assoc, List.singleton_append, List.splitOn_eq_splitOnP,
      List.splitOnP_append_cons_of_forall_mem hfree mark (beq_self_eq_true mark),
      ← List.splitOn_eq_splitOnP, splitOn_flatMap hws, List.cons_append]

/-- The words of `spoken`. -/
def spokenWords (v : Int) : List String :=
  (if v < 0 then ["rogue"] else []) ++ (numeral 10 v.natAbs).map digitName

theorem toList_spoken (v : Int) :
    (spoken v).toList = ((spokenWords v).map String.toList).flatMap (· ++ [' ']) := by
  unfold spoken spokenWords
  split_ifs <;> simp [List.flatMap_map, Function.comp_def]

theorem blank_notMem_digitName : ∀ d < 10, ' ' ∉ (digitName d).toList := by decide

theorem digitName_ne_rogue : ∀ d < 10, digitName d ≠ "rogue" := by decide

theorem digitName_inj : ∀ d < 10, ∀ e < 10, digitName d = digitName e → d = e := by decide

theorem blank_notMem_spokenWords (v : Int) : ∀ w ∈ (spokenWords v).map String.toList, ' ' ∉ w := by
  intro w hw
  obtain ⟨word, hword, rfl⟩ := List.mem_map.mp hw
  rcases List.mem_append.mp hword with hsign | hdigit
  · split_ifs at hsign with hneg
    · rw [List.mem_singleton.mp hsign]
      decide
    · exact absurd hsign List.not_mem_nil
  · obtain ⟨d, hd, rfl⟩ := List.mem_map.mp hdigit
    exact blank_notMem_digitName d (numeral_lt (by decide) hd)

theorem names_inj : ∀ {ds es : List Nat}, (∀ d ∈ ds, d < 10) → (∀ e ∈ es, e < 10) →
    ds.map digitName = es.map digitName → ds = es
  | [], [], _, _, _ => rfl
  | d :: ds, e :: es, hds, hes, h => by
    obtain ⟨hd, hds'⟩ := List.forall_mem_cons.mp hds
    obtain ⟨he, hes'⟩ := List.forall_mem_cons.mp hes
    obtain ⟨hhead, htail⟩ := List.cons.inj h
    rw [digitName_inj d hd e he hhead, names_inj hds' hes' htail]

theorem rogue_append_ne_names (ws : List String) (n : Nat) :
    ["rogue"] ++ ws ≠ (numeral 10 n).map digitName := by
  intro h
  have hmem : "rogue" ∈ (numeral 10 n).map digitName :=
    h ▸ List.mem_append_left ws List.mem_cons_self
  obtain ⟨d, hd, heq⟩ := List.mem_map.mp hmem
  exact digitName_ne_rogue d (numeral_lt (by decide) hd) heq

/-- **Two numbers are never the same words.** -/
theorem spoken_injective : Function.Injective spoken := by
  intro v w h
  have hwords : spokenWords v = spokenWords w := by
    have hsplit := congrArg (·.toList.splitOn ' ') h
    simp only [toList_spoken, splitOn_flatMap (blank_notMem_spokenWords _)] at hsplit
    exact List.map_injective_iff.mpr (fun _ _ => String.toList_inj.mp)
      (List.append_cancel_right hsplit)
  have hnumeral : ∀ {m n : Nat}, (numeral 10 m).map digitName = (numeral 10 n).map digitName →
      m = n := by
    intro m n hmap
    rw [← ofDigits_numeral (show 1 < 10 by decide) m, ← ofDigits_numeral (show 1 < 10 by decide) n,
      names_inj (fun _ => numeral_lt (by decide)) (fun _ => numeral_lt (by decide)) hmap]
  unfold spokenWords at hwords
  split_ifs at hwords with hv hw hw
  · have := hnumeral (List.append_cancel_left hwords)
    omega
  · exact absurd hwords (rogue_append_ne_names _ _)
  · exact absurd hwords.symm (rogue_append_ne_names _ _)
  · have := hnumeral (List.append_cancel_left hwords)
    omega

/-! ## `die` -/

/-- What `die` prints. -/
def dieText (error : String) (m : Machine) : Option String := do
  let ip ← intToText (Int32.ofNat m.codePos) 1
  let entries ← m.stack.reverse.mapM fun v => intToText v.toInt32 1
  some ("\n" ++ error ++ "\n\nip: " ++ ip.text ++ "Stack\n-----\n" ++
    String.join (entries.map (·.text)))

/-- **`die` prints the position and the whole stack**, in every state of the interpreter. -/
theorem dieText_eq (error : String) (m : Machine) :
    dieText error m = some ("\n" ++ error ++ "\n\nip: " ++ (spoken m.codePos ++ "\n") ++
      "Stack\n-----\n" ++ String.join (m.stack.reverse.map fun v => spoken v.toInt ++ "\n")) := by
  have hpos := m.pos_lt
  unfold positions at hpos
  have hip : (Int32.ofNat m.codePos).toInt = m.codePos :=
    Int32.toInt_ofNat_of_lt (by omega)
  have hle : Int32.minValue < Int32.ofNat m.codePos := by
    rw [Int32.lt_iff_toInt_lt, hip]
    exact Int.lt_of_lt_of_le (by decide) (Int.natCast_nonneg m.codePos)
  have hentries : (fun v : Int8 => intToText v.toInt32 1) =
      fun v => pure ⟨spoken v.toInt ++ "\n", (numeral 10 v.toInt.natAbs).map Nat.cast⟩ := by
    funext v
    have hlt : Int32.minValue < v.toInt32 := by
      rw [Int32.lt_iff_toInt_lt, Int8.toInt_toInt32]
      exact Int.lt_of_lt_of_le (by decide) v.le_toInt
    rw [intToText_eq hlt, Int8.toInt_toInt32, if_pos (by decide)]
    rfl
  rw [dieText, hentries, intToText_eq hle, hip, List.mapM_pure, if_pos (by decide)]
  simp [Function.comp_def]

end Quals2017.Jargon
