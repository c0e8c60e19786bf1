import Quals2017.Insanity.Interpreter
import Quals2017.Lib.Outcome

/-!
# What the operators leave on the stack (`insanity/insanity.c:239-330`)

`add`, `subtract`, `multiply` and `compare` take the two entries on top of the stack, and leave one
result in their place, or end the program on a string.

* `Disciplined`: the round does so, with the tag the result ought to have.
* `Sound`: the two entries with which it does. The concatenation of two strings is pushed without
  its tag; the comparison of two strings is stored below the place of the result, over an entry
  that is not an operand; and a number of 2^63 or more is tagged as a string.
* **`operands_disciplined_iff`**: in every state a program reaches.
-/

namespace Quals2017.Insanity

open Quals2017.Lib

/-! ## The tag -/

theorem isString_testBit (e : UInt64) : IsString e ↔ e.toNat.testBit 63 = true := by
  have hand : (e &&& stringBit).toNat = (e.toNat.testBit 63).toNat * 2 ^ 63 := by
    rw [UInt64.toNat_and]
    exact Nat.and_two_pow e.toNat 63
  unfold IsString
  rw [ne_eq, ← UInt64.toNat_inj, hand]
  cases e.toNat.testBit 63 <;> simp

theorem isString_iff (e : UInt64) : IsString e ↔ 2 ^ 63 ≤ e.toNat := by
  have hlt := e.toNat_lt
  rw [isString_testBit, Nat.testBit_eq_decide_div_mod_eq, decide_eq_true_iff]
  omega

theorem both_strings_iff (e₁ e₂ : UInt64) :
    e₁ &&& e₂ &&& stringBit ≠ 0 ↔ IsString e₁ ∧ IsString e₂ := by
  rw [show e₁ &&& e₂ &&& stringBit ≠ 0 ↔ IsString (e₁ &&& e₂) from Iff.rfl, isString_testBit,
    isString_testBit, isString_testBit, UInt64.toNat_and, Nat.testBit_and, Bool.and_eq_true]

/-! ## What a round ought to do -/

/-- The two entries on top of `s` have made way for `result` in `s'`. -/
structure Combines (s s' : State) (result : UInt64) : Prop where
  stackPos : s'.stackPos = s.stackPos - 1
  top : s'.load (s.stackPos - 1) = .ok result
  lower : ∀ i, i < s.stackPos - 1 → s'.load i = s.load i

/-- The result on two numbers. -/
def value (opcode entry1 entry2 : UInt64) : UInt64 :=
  if opcode = 2 then entry1 + entry2
  else if opcode = 3 then entry2 - entry1
  else if opcode = 4 then entry1 * entry2
  else if entry1 = entry2 then 1 else 0

/-- The round ends the program on a string it does not allow, or it leaves one result in the place
of the entries, a string if it has put two strings together and a number otherwise. -/
def Disciplined (opcode entry1 entry2 : UInt64) (s : State) : Except Halt State → Prop
  | .ok s' => ∃ result, Combines s s' result ∧
      (IsString result ↔ opcode = 2 ∧ IsString entry1 ∧ IsString entry2) ∧
      (¬ IsString entry1 → ¬ IsString entry2 → result = value opcode entry1 entry2)
  | .error (.exit _) => ¬ (IsString entry1 ↔ IsString entry2) ∨
      (IsString entry1 ∧ IsString entry2 ∧ (opcode = 3 ∨ opcode = 4))
  | .error _ => False

/-- The operands on which the operators keep the discipline. -/
structure Sound (opcode entry1 entry2 : UInt64) : Prop where
  strings : IsString entry1 → IsString entry2 → opcode = 3 ∨ opcode = 4
  add : ¬ IsString entry1 → ¬ IsString entry2 → opcode = 2 →
    entry1.toNat + entry2.toNat < 2 ^ 63
  subtract : ¬ IsString entry1 → ¬ IsString entry2 → opcode = 3 → entry1.toNat ≤ entry2.toNat
  multiply : ¬ IsString entry1 → ¬ IsString entry2 → opcode = 4 →
    entry1.toNat * entry2.toNat % 2 ^ 64 < 2 ^ 63

theorem sound_numbers_iff {opcode e₁ e₂ : UInt64} (h₁ : ¬ IsString e₁) (h₂ : ¬ IsString e₂) :
    Sound opcode e₁ e₂ ↔ (opcode = 2 → e₁.toNat + e₂.toNat < 2 ^ 63) ∧
      (opcode = 3 → e₁.toNat ≤ e₂.toNat) ∧
      (opcode = 4 → e₁.toNat * e₂.toNat % 2 ^ 64 < 2 ^ 63) :=
  ⟨fun h => ⟨h.add h₁ h₂, h.subtract h₁ h₂, h.multiply h₁ h₂⟩,
    fun ⟨hadd, hsub, hmul⟩ => ⟨fun h => absurd h h₁, fun _ _ => hadd, fun _ _ => hsub,
      fun _ _ => hmul⟩⟩

/-- The result on two numbers is a number exactly on sound operands. -/
theorem value_isString_iff {opcode e₁ e₂ : UInt64} (hop : opcode ∈ [2, 3, 4, 5])
    (h₁ : ¬ IsString e₁) (h₂ : ¬ IsString e₂) :
    ¬ IsString (value opcode e₁ e₂) ↔ Sound opcode e₁ e₂ := by
  rw [sound_numbers_iff h₁ h₂, isString_iff]
  rw [isString_iff] at h₁ h₂
  have hlt := e₁.toNat_lt
  simp only [List.mem_cons, List.not_mem_nil, or_false] at hop
  rcases hop with rfl | rfl | rfl | rfl
  · rw [show value 2 e₁ e₂ = e₁ + e₂ from rfl, UInt64.toNat_add]
    simp
    omega
  · rw [show value 3 e₁ e₂ = e₂ - e₁ from rfl, UInt64.toNat_sub]
    simp
    omega
  · rw [show value 4 e₁ e₂ = e₁ * e₂ from rfl, UInt64.toNat_mul]
    simp
  · rw [show value 5 e₁ e₂ = if e₁ = e₂ then 1 else 0 from rfl]
    split_ifs <;> simp

/-! ## The stack -/

theorem State.load_of {s : State} {i : Int} (h₀ : 0 ≤ i) (h : i < 1000) :
    s.load i = .ok s.stack[i.toNat] := dif_pos ⟨h₀, h⟩

theorem State.load_congr {s s' : State} (h : s'.stack = s.stack) (i : Int) :
    s'.load i = s.load i := by
  unfold State.load
  simp only [h]

/-- The entry at the place of a store is the one stored. -/
theorem State.store_of {s : State} {i : Int} (h₀ : 0 ≤ i) (h : i < 1000) (v : UInt64) :
    ∃ s', s.store i v = .ok s' ∧ s'.stackPos = s.stackPos ∧ s'.ip = s.ip ∧ s'.mem = s.mem ∧
      s'.load i = .ok v ∧ ∀ j, j ≠ i → s'.load j = s.load j := by
  refine ⟨_, dif_pos ⟨h₀, h⟩, rfl, rfl, rfl, ?_, fun j hj => ?_⟩
  · rw [State.load_of h₀ h]
    simp
  · unfold State.load
    split_ifs with hin
    · have hne : i.toNat ≠ j.toNat := by omega
      simp [hne]
    · rfl

/-- The push behind two pops. -/
theorem push_combines {s : State} (h₀ : 2 ≤ s.stackPos) (h : s.stackPos < 1000) (v : UInt64) :
    ∃ s', { s with stackPos := s.stackPos - 1 - 1 }.push v = .ok s' ∧ Combines s s' v := by
  obtain ⟨s', hs', hpos, -, -, htop, hlow⟩ :=
    State.store_of (s := { s with stackPos := s.stackPos - 1 - 1 + 1 })
      (i := s.stackPos - 1 - 1 + 1) (by omega) (by omega) v
  refine ⟨s', hs', hpos.trans (Int.sub_add_cancel _ _), ?_, fun i hi => hlow i (by omega)⟩
  rwa [show s.stackPos - 1 - 1 + 1 = s.stackPos - 1 by omega] at htop

/-! ## The stack pointer stays inside -/

/-- If the round goes on, `StackPos` is inside the array. -/
def Inside (x : Except Halt State) : Prop := ∀ s', x = .ok s' → s'.stackPos < 1000

theorem Inside.error (e : Halt) : Inside (.error e) := nofun

theorem Inside.ok {s : State} (h : s.stackPos < 1000) : Inside (.ok s) :=
  fun _ hs => Except.ok.inj hs ▸ h

theorem Inside.ite {c : Prop} [Decidable c] {x y : Except Halt State} (hx : Inside x)
    (hy : Inside y) : Inside (if c then x else y) := by
  split
  · exact hx
  · exact hy

theorem Inside.bind {α : Type} {x : Except Halt α} {f : α → Except Halt State}
    (hf : ∀ a, x = .ok a → Inside (f a)) : Inside (x >>= f) := by
  intro s' h
  obtain ⟨a, ha, h⟩ := bind_eq_ok h
  exact hf a ha s' h

theorem store_ok {s s' : State} {i : Int} {v : UInt64} (h : s.store i v = .ok s') :
    (0 ≤ i ∧ i < 1000) ∧ s'.stackPos = s.stackPos ∧ s'.load i = .ok v ∧
      ∀ j, j ≠ i → s'.load j = s.load j := by
  by_cases hin : 0 ≤ i ∧ i < 1000
  · obtain ⟨s₁, hs₁, hpos, -, -, htop, hrest⟩ := s.store_of hin.1 hin.2 v
    obtain rfl := Except.ok.inj (hs₁.symm.trans h)
    exact ⟨hin, hpos, htop, hrest⟩
  · rw [State.store, dif_neg hin] at h
    exact nomatch h

theorem Inside.push (s : State) (v : UInt64) : Inside (s.push v) := by
  intro s' h
  obtain ⟨⟨-, hlt⟩, hpos, -, -⟩ := store_ok h
  rw [hpos]
  exact hlt

theorem Inside.store {s : State} (h : s.stackPos < 1000) (i : Int) (v : UInt64) :
    Inside (s.store i v) := by
  intro s' hs
  rw [(store_ok hs).2.1]
  exact h

/-- A pop moves the pointer down. -/
theorem pop_ok {s s' : State} {v : UInt64} (h : s.pop = .ok (v, s')) :
    s.load s.stackPos = .ok v ∧ s' = { s with stackPos := s.stackPos - 1 } := by
  obtain ⟨w, hw, hs⟩ := bind_eq_ok h
  obtain ⟨rfl, rfl⟩ := Prod.mk.inj (Except.ok.inj hs)
  exact ⟨hw, rfl⟩

theorem release_ok {env : Env} {s s' : State} {a : UInt64} (h : s.release env a = .ok s') :
    s'.stack = s.stack ∧ s'.stackPos = s.stackPos := by
  unfold State.release at h
  split_ifs at h
  · exact Except.ok.inj h ▸ ⟨rfl, rfl⟩
  · cases hfree : env.free s.mem a with
    | none =>
      rw [hfree] at h
      exact nomatch h
    | some mem =>
      rw [hfree] at h
      exact Except.ok.inj h ▸ ⟨rfl, rfl⟩

theorem newString_ok {env : Env} {s s' : State} {bytes : List UInt8} {a : UInt64}
    (h : s.newString env bytes = .ok (a, s')) :
    a = (env.malloc s.mem bytes.length).1 ∧ s'.stack = s.stack ∧ s'.stackPos = s.stackPos := by
  unfold State.newString at h
  simp only at h
  split_ifs at h
  obtain ⟨rfl, rfl⟩ := Prod.mk.inj (Except.ok.inj h)
  exact ⟨rfl, rfl, rfl⟩

theorem Inside.arithmetic (op : UInt64 → UInt64 → UInt64) (message : String) (s : State) :
    Inside (arithmetic op message s) := by
  refine .bind fun ⟨entry1, s₁⟩ _ => .bind fun ⟨entry2, s₂⟩ _ => ?_
  simp only
  split_ifs
  · exact .error _
  · exact .push s₂ _

theorem Inside.add (env : Env) (s : State) : Inside (add env s) := by
  refine .bind fun ⟨entry1, s₁⟩ _ => .bind fun ⟨entry2, s₂⟩ _ => ?_
  simp only
  split_ifs
  · refine .bind fun bytes1 _ => .bind fun bytes2 _ => .bind fun ⟨newString, s₃⟩ _ => ?_
    refine .bind fun s₄ h₄ => .bind fun s₅ h₅ => fun s₆ h₆ => ?_
    rw [(release_ok h₆).2, (release_ok h₅).2]
    exact Inside.push _ _ s₄ h₄
  · exact .error _
  · exact .push s₂ _

/-- Two pops leave room for an entry. -/
theorem pop_pop_lt {s s₁ s₂ : State} {entry1 entry2 : UInt64} (h : s.stackPos < 1000)
    (h₁ : s.pop = .ok (entry1, s₁)) (h₂ : s₁.pop = .ok (entry2, s₂)) : s₂.stackPos < 999 := by
  obtain ⟨-, rfl⟩ := pop_ok h₁
  obtain ⟨-, rfl⟩ := pop_ok h₂
  simp only
  omega

theorem Inside.compare (env : Env) {s : State} (h : s.stackPos < 1000) :
    Inside (compare env s) := by
  refine .bind fun ⟨entry1, s₁⟩ h₁ => .bind fun ⟨entry2, s₂⟩ h₂ => ?_
  have hlt := pop_pop_lt h h₁ h₂
  simp only
  split_ifs
  · refine .bind fun bytes1 _ => .bind fun bytes2 _ => .bind fun s₃ h₃ => .ok ?_
    have hpos := (store_ok h₃).2.1
    simp only
    omega
  · exact .error _
  · exact .push s₂ _
  · exact .push s₂ _

theorem Inside.loadEntry (env : Env) (s : State) : Inside (loadEntry env s) := by
  refine .bind fun entry1 _ => ?_
  split_ifs
  · exact .error _
  · refine .bind fun base _ => ?_
    split_ifs
    · exact .bind fun ⟨entry2, s₁⟩ _ => .bind fun v _ => .push s₁ v
    · exact .error _

theorem Inside.storeEntry {s : State} (h : s.stackPos < 1000) : Inside (storeEntry s) := by
  refine .bind fun ⟨entry1, s₁⟩ h₁ => .bind fun ⟨entry2, s₂⟩ h₂ => ?_
  have hlt := pop_pop_lt h h₁ h₂
  simp only
  split_ifs
  · exact .error _
  · exact .store (by omega) _ _

theorem Inside.jump {s : State} (h : s.stackPos < 1000) : Inside (jump s) := by
  refine .bind fun ⟨entry1, s₁⟩ h₁ => .bind fun ⟨entry2, s₂⟩ h₂ => ?_
  have hlt := pop_pop_lt h h₁ h₂
  simp only
  split_ifs
  · exact .error _
  · exact .ok (by simp only; omega)
  · exact .ok (by omega)

theorem Inside.execute (env : Env) (opcode : UInt64) {s : State} (h : s.stackPos < 1000) :
    Inside (execute env opcode s) := by
  unfold Insanity.execute
  refine .ite ?_ (.ite ?_ (.ite ?_ (.ite ?_ (.ite ?_ (.ite ?_ (.ite ?_ (.ite ?_ (.ite ?_ ?_))))))))
  · exact .bind fun _ _ => .push s _
  · exact .add env s
  · exact .arithmetic _ _ s
  · exact .arithmetic _ _ s
  · exact .compare env h
  · exact .loadEntry env s
  · exact .storeEntry h
  · exact .jump h
  · exact .bind fun _ _ => .bind fun _ _ => .bind fun ⟨_, s₁⟩ _ => .push s₁ _
  · exact .bind fun _ _ => .push s _

/-- **A round that goes on leaves `StackPos` inside the array.** -/
theorem step_inside {env : Env} {s : State} (h : s.stackPos < 1000) : Inside (step env s) := by
  refine .bind fun opcode _ => ?_
  split_ifs
  · exact .error _
  · exact .bind fun s₁ h₁ => .ok (Inside.execute env opcode h s₁ h₁)

theorem run_inside {env : Env} : ∀ {n : Nat} {s s' : State}, s.stackPos < 1000 →
    (machine env).run n s = .ok s' → s'.stackPos < 1000
  | 0, _, _, h, hrun => Except.ok.inj hrun ▸ h
  | _ + 1, _, _, h, hrun => by
    obtain ⟨s₁, hs, hrun⟩ := bind_eq_ok hrun
    exact run_inside (step_inside h s₁ hs) hrun

/-! ## The operators on the top two entries -/

theorem Combines.of_ip {s s' : State} {result : UInt64} (h : Combines s s' result) (ip : Int) :
    Combines s { s' with ip } result := ⟨h.stackPos, h.top, h.lower⟩

/-- The discipline is not about `IP`. -/
theorem disciplined_step {env : Env} {s : State} {opcode entry1 entry2 : UInt64}
    (hop : s.load s.ip = .ok opcode) (hne : opcode ≠ 0) :
    Disciplined opcode entry1 entry2 s (step env s) ↔
      Disciplined opcode entry1 entry2 s (execute env opcode s) := by
  unfold step
  rw [hop]
  simp only [bind, Except.bind, if_neg hne]
  cases execute env opcode s with
  | error e => exact Iff.rfl
  | ok s' =>
    constructor
    · rintro ⟨result, hcomb, hrest⟩
      exact ⟨result, hcomb.of_ip s'.ip, hrest⟩
    · rintro ⟨result, hcomb, hrest⟩
      exact ⟨result, hcomb.of_ip _, hrest⟩

section Binary

variable {env : Env} {s : State} {opcode entry1 entry2 : UInt64}

/-- On two numbers, the value is pushed. -/
theorem disciplined_push (hbin : opcode ∈ [2, 3, 4, 5]) (hlow : 2 ≤ s.stackPos)
    (hhigh : s.stackPos < 1000) (h₁ : ¬ IsString entry1) (h₂ : ¬ IsString entry2) :
    Disciplined opcode entry1 entry2 s
        ({ s with stackPos := s.stackPos - 1 - 1 }.push (value opcode entry1 entry2)) ↔
      Sound opcode entry1 entry2 := by
  obtain ⟨s', hpush, hcomb⟩ := push_combines hlow hhigh (value opcode entry1 entry2)
  rw [hpush, ← value_isString_iff hbin h₁ h₂]
  constructor
  · rintro ⟨result, -, htag, hval⟩
    rw [hval h₁ h₂] at htag
    exact fun hs => h₁ (htag.mp hs).2.1
  · intro hnum
    exact ⟨_, hcomb, iff_of_false hnum fun hs => h₁ hs.2.1, fun _ _ => rfl⟩

/-- On a string and a number the program ends. -/
theorem disciplined_exit (message : String)
    (h : ¬ (IsString entry1 ↔ IsString entry2) ∨
      (IsString entry1 ∧ IsString entry2 ∧ (opcode = 3 ∨ opcode = 4))) :
    Disciplined opcode entry1 entry2 s (.error (.exit message)) ↔ Sound opcode entry1 entry2 := by
  refine iff_of_true h ⟨fun h₁ h₂ => ?_, fun h₁ h₂ => ?_, fun h₁ h₂ => ?_, fun h₁ h₂ => ?_⟩
  · exact h.elim (fun hd => absurd (iff_of_true h₁ h₂) hd) fun hs => hs.2.2
  all_goals exact (h.elim (fun hd => hd (iff_of_false h₁ h₂)) fun hs => h₁ hs.1).elim

/-- With two strings to add or to compare there is no message to end with. -/
theorem not_disciplined_error (h₁ : IsString entry1) (h₂ : IsString entry2)
    (hop : opcode ≠ 3 ∧ opcode ≠ 4) (e : Halt) :
    ¬ Disciplined opcode entry1 entry2 s (.error e) := by
  cases e with
  | exit message =>
    rintro (hd | ⟨-, -, h3 | h4⟩)
    · exact hd (iff_of_true h₁ h₂)
    · exact hop.1 h3
    · exact hop.2 h4
  | done => exact id
  | fault => exact id

variable (hload₁ : s.load s.stackPos = .ok entry1) (hload₂ : s.load (s.stackPos - 1) = .ok entry2)

include hload₁ in
theorem pop_top : s.pop = .ok (entry1, { s with stackPos := s.stackPos - 1 }) := by
  unfold State.pop
  rw [hload₁]
  rfl

include hload₂ in
theorem pop_second : State.pop { s with stackPos := s.stackPos - 1 } =
    .ok (entry2, { s with stackPos := s.stackPos - 1 - 1 }) := by
  have hload : State.load { s with stackPos := s.stackPos - 1 } (s.stackPos - 1) = .ok entry2 :=
    hload₂
  unfold State.pop
  simp only
  rw [hload]
  rfl

include hload₁ hload₂

theorem arithmetic_eq (op : UInt64 → UInt64 → UInt64) (message : String) :
    arithmetic op message s =
      if IsString entry1 ∨ IsString entry2 then .error (.exit message)
      else State.push { s with stackPos := s.stackPos - 1 - 1 } (op entry1 entry2) := by
  unfold arithmetic
  simp only [pop_top hload₁, pop_second hload₂, ok_bind]

theorem add_eq : add env s =
    if entry1 &&& entry2 &&& stringBit ≠ 0 then do
      let s : State := { s with stackPos := s.stackPos - 1 - 1 }
      let bytes1 ← s.string env (address entry1)
      let bytes2 ← s.string env (address entry2)
      let (newString, s) ← s.newString env (bytes1 ++ bytes2 ++ [0])
      let s ← s.push newString
      let s ← s.release env (address entry1)
      s.release env (address entry2)
    else if IsString entry1 ∨ IsString entry2 then .error (.exit "Invalid add\n")
    else State.push { s with stackPos := s.stackPos - 1 - 1 } (entry1 + entry2) := by
  unfold add
  simp only [pop_top hload₁, pop_second hload₂, ok_bind]

theorem compare_eq : compare env s =
    if entry1 &&& entry2 &&& stringBit ≠ 0 then do
      let s : State := { s with stackPos := s.stackPos - 1 - 1 }
      let bytes1 ← s.string env (address entry1)
      let bytes2 ← s.string env (address entry2)
      let s ← s.store s.stackPos (if bytes1 = bytes2 then 1 else 0)
      .ok { s with stackPos := s.stackPos + 1 }
    else if IsString entry1 ∨ IsString entry2 then .error (.exit "Invalid compare\n")
    else State.push { s with stackPos := s.stackPos - 1 - 1 } (if entry1 = entry2 then 1 else 0) := by
  unfold compare
  simp only [pop_top hload₁, pop_second hload₂, ok_bind]

/-- The concatenation of two strings is pushed without its tag. -/
theorem add_strings (hmalloc : ∀ mem n, (env.malloc mem n).1.toNat < 2 ^ 63)
    (h₁ : IsString entry1) (h₂ : IsString entry2) :
    ¬ Disciplined 2 entry1 entry2 s (add env s) := by
  cases hadd : add env s with
  | error e => exact not_disciplined_error h₁ h₂ (by decide) e
  | ok s' =>
    rw [add_eq hload₁ hload₂, if_pos ((both_strings_iff _ _).mpr ⟨h₁, h₂⟩)] at hadd
    obtain ⟨bytes1, -, hadd⟩ := bind_eq_ok hadd
    obtain ⟨bytes2, -, hadd⟩ := bind_eq_ok hadd
    obtain ⟨⟨newString, s₃⟩, hnew, hadd⟩ := bind_eq_ok hadd
    obtain ⟨s₄, hpush, hadd⟩ := bind_eq_ok hadd
    obtain ⟨s₅, hfree₁, hfree₂⟩ := bind_eq_ok hadd
    rintro ⟨result, hcomb, htag, -⟩
    have hstack := (release_ok hfree₂).1.trans (release_ok hfree₁).1
    have htop := (store_ok hpush).2.2.1
    obtain ⟨ha, -, hpos⟩ := newString_ok hnew
    simp only [hpos, Int.sub_add_cancel] at htop
    have hresult := hcomb.top
    rw [State.load_congr hstack, htop] at hresult
    have haddr := hmalloc s.mem (bytes1 ++ bytes2 ++ [0]).length
    rw [← show newString = _ from ha, Except.ok.inj hresult] at haddr
    exact absurd ((isString_iff _).mp (htag.mpr ⟨rfl, h₁, h₂⟩)) (Nat.not_le.mpr haddr)

/-- The comparison of two strings leaves the lower of them on top. -/
theorem compare_strings (h₁ : IsString entry1) (h₂ : IsString entry2) :
    ¬ Disciplined 5 entry1 entry2 s (compare env s) := by
  cases hcmp : compare env s with
  | error e => exact not_disciplined_error h₁ h₂ (by decide) e
  | ok s' =>
    rw [compare_eq hload₁ hload₂, if_pos ((both_strings_iff _ _).mpr ⟨h₁, h₂⟩)] at hcmp
    obtain ⟨bytes1, -, hcmp⟩ := bind_eq_ok hcmp
    obtain ⟨bytes2, -, hcmp⟩ := bind_eq_ok hcmp
    obtain ⟨s₃, hstore, hs'⟩ := bind_eq_ok hcmp
    rintro ⟨result, hcomb, htag, -⟩
    have hkept := (store_ok hstore).2.2.2 (s.stackPos - 1) (by simp only; omega)
    have hload : s'.load (s.stackPos - 1) = s₃.load (s.stackPos - 1) :=
      State.load_congr (by rw [← Except.ok.inj hs']) _
    have hresult := hcomb.top
    rw [hload, hkept] at hresult
    have heq : result = entry2 := Except.ok.inj (hresult.symm.trans hload₂)
    exact absurd (htag.mp (heq ▸ h₂)).1 (by decide)

theorem execute_numbers (hbin : opcode ∈ [2, 3, 4, 5]) (h₁ : ¬ IsString entry1)
    (h₂ : ¬ IsString entry2) : execute env opcode s =
      State.push { s with stackPos := s.stackPos - 1 - 1 } (value opcode entry1 entry2) := by
  have hboth : ¬ (entry1 &&& entry2 &&& stringBit ≠ 0) := fun h =>
    h₁ ((both_strings_iff _ _).mp h).1
  have hnone : ¬ (IsString entry1 ∨ IsString entry2) := fun h => h.elim h₁ h₂
  simp only [List.mem_cons, List.not_mem_nil, or_false] at hbin
  rcases hbin with rfl | rfl | rfl | rfl
  · exact (add_eq hload₁ hload₂).trans ((if_neg hboth).trans (if_neg hnone))
  · show subtract s = _
    exact (arithmetic_eq hload₁ hload₂ _ _).trans (if_neg hnone)
  · show multiply s = _
    exact (arithmetic_eq hload₁ hload₂ _ _).trans (if_neg hnone)
  · exact (compare_eq hload₁ hload₂).trans ((if_neg hboth).trans (if_neg hnone))

theorem execute_exits (hbin : opcode ∈ [2, 3, 4, 5]) (h : IsString entry1 ∨ IsString entry2)
    (hop : ¬ (IsString entry1 ∧ IsString entry2) ∨ opcode = 3 ∨ opcode = 4) :
    ∃ message, execute env opcode s = .error (.exit message) := by
  have hboth : opcode ≠ 3 → opcode ≠ 4 → ¬ (entry1 &&& entry2 &&& stringBit ≠ 0) := by
    intro h3 h4 hb
    rcases hop with hn | rfl | rfl
    · exact hn ((both_strings_iff _ _).mp hb)
    · exact h3 rfl
    · exact h4 rfl
  simp only [List.mem_cons, List.not_mem_nil, or_false] at hbin
  rcases hbin with rfl | rfl | rfl | rfl
  · exact ⟨_, (add_eq hload₁ hload₂).trans
      ((if_neg (hboth (by decide) (by decide))).trans (if_pos h))⟩
  · refine ⟨"Invalid subtract\n", ?_⟩
    show subtract s = _
    exact (arithmetic_eq hload₁ hload₂ _ _).trans (if_pos h)
  · refine ⟨"Invalid multiply\n", ?_⟩
    show multiply s = _
    exact (arithmetic_eq hload₁ hload₂ _ _).trans (if_pos h)
  · exact ⟨_, (compare_eq hload₁ hload₂).trans
      ((if_neg (hboth (by decide) (by decide))).trans (if_pos h))⟩

/-- **An operator keeps the discipline exactly on sound operands.** -/
theorem execute_disciplined (hmalloc : ∀ mem n, (env.malloc mem n).1.toNat < 2 ^ 63)
    (hbin : opcode ∈ [2, 3, 4, 5]) (hlow : 2 ≤ s.stackPos) (hhigh : s.stackPos < 1000) :
    Disciplined opcode entry1 entry2 s (execute env opcode s) ↔ Sound opcode entry1 entry2 := by
  by_cases hsome : IsString entry1 ∨ IsString entry2
  · by_cases hop : ¬ (IsString entry1 ∧ IsString entry2) ∨ opcode = 3 ∨ opcode = 4
    · obtain ⟨message, hexit⟩ := @execute_exits env s opcode _ _ hload₁ hload₂ hbin hsome hop
      rw [hexit]
      refine disciplined_exit message ?_
      by_cases hboth : IsString entry1 ∧ IsString entry2
      · exact .inr ⟨hboth.1, hboth.2, hop.resolve_left (not_not.mpr hboth)⟩
      · refine .inl fun hiff => hboth ?_
        exact hsome.elim (fun h => ⟨h, hiff.mp h⟩) fun h => ⟨hiff.mpr h, h⟩
    · obtain ⟨hstrings, hop⟩ := not_or.mp hop
      obtain ⟨h₁, h₂⟩ := not_not.mp hstrings
      refine iff_of_false ?_ fun hs => hop (hs.strings h₁ h₂)
      simp only [List.mem_cons, List.not_mem_nil, or_false] at hbin
      rcases hbin with rfl | rfl | rfl | rfl
      · exact add_strings hload₁ hload₂ hmalloc h₁ h₂
      · exact absurd (Or.inl rfl) hop
      · exact absurd (Or.inr rfl) hop
      · exact compare_strings hload₁ hload₂ h₁ h₂
  · obtain ⟨h₁, h₂⟩ := not_or.mp hsome
    rw [execute_numbers hload₁ hload₂ hbin h₁ h₂]
    exact disciplined_push hbin hlow hhigh h₁ h₂

end Binary

/-! ## Programs that push twice -/

theorem started_load (env : Env) (rest : UInt64) (words : List UInt64) (mem : Mem) {i : Int}
    (h₀ : 0 ≤ i) (h : i < 1000) : (started env rest words mem).load i = .ok
      (((env.stackAddr ||| stringBit) :: (rest ||| stringBit) :: words ++ [0]).getD i.toNat 0) := by
  rw [State.load_of h₀ h]
  simp [started]

/-- A round that pushes. -/
theorem step_push {env : Env} {s : State} {opcode v : UInt64} (hop : s.load s.ip = .ok opcode)
    (hne : opcode ≠ 0) (hexec : execute env opcode s = s.room >>= fun _ => s.push v)
    (h₀ : 0 ≤ s.stackPos) (h : s.stackPos < 999) :
    ∃ s', step env s = .ok s' ∧ s'.ip = s.ip + 1 ∧ s'.stackPos = s.stackPos + 1 ∧
      s'.load (s.stackPos + 1) = .ok v ∧
      ∀ i, i ≠ s.stackPos + 1 → s'.load i = s.load i := by
  obtain ⟨s', hs', hpos, hip, -, htop, hrest⟩ :=
    State.store_of (s := { s with stackPos := s.stackPos + 1 }) (i := s.stackPos + 1) (by omega)
      (by omega) v
  have hpush : s.push v = .ok s' := hs'
  have hroom : s.room = .ok () := if_neg (by omega)
  refine ⟨{ s' with ip := s'.ip + 1 }, ?_, congrArg (· + 1) hip, hpos, htop, hrest⟩
  unfold step
  rw [hop, ok_bind, if_neg hne, hexec, hroom, ok_bind, hpush, ok_bind]

/-- A program that pushes twice, before its third word. -/
theorem run_two_pushes {env : Env} {rest w₁ w₂ w₃ v₁ v₂ : UInt64} {mem : Mem} (h₁ : w₁ ≠ 0)
    (h₂ : w₂ ≠ 0) (hexec₁ : ∀ s, execute env w₁ s = s.room >>= fun _ => s.push v₁)
    (hexec₂ : ∀ s, execute env w₂ s = s.room >>= fun _ => s.push v₂) :
    ∃ s, (machine env).run 2 (started env rest [w₁, w₂, w₃] mem) = .ok s ∧ s.load s.ip = .ok w₃ ∧
      s.stackPos = 7 ∧ s.load s.stackPos = .ok v₂ ∧ s.load (s.stackPos - 1) = .ok v₁ := by
  have hload {i : Int} (h₀ : 0 ≤ i) (h : i < 1000) := started_load env rest [w₁, w₂, w₃] mem h₀ h
  obtain ⟨s₁, hs₁, hip₁, hpos₁, htop₁, hrest₁⟩ :=
    step_push (s := started env rest [w₁, w₂, w₃] mem) (hload (i := 2) (by decide) (by decide)) h₁
      (hexec₁ _) (Int.natCast_nonneg 5) (Int.ofNat_lt.mpr (by decide : 5 < 999))
  have hip₁ : s₁.ip = 3 := hip₁
  have hpos₁ : s₁.stackPos = 6 := hpos₁
  have hop₁ : s₁.load s₁.ip = .ok w₂ := by
    rw [hip₁, hrest₁ 3 (by simp [started])]
    exact hload (by decide) (by decide)
  obtain ⟨s₂, hs₂, hip₂, hpos₂, htop₂, hrest₂⟩ :=
    step_push hop₁ h₂ (hexec₂ s₁) (by omega) (by omega)
  refine ⟨s₂, ?_, ?_, by rw [hpos₂, hpos₁]; rfl, by rw [hpos₂]; exact htop₂, ?_⟩
  · rw [Machine.run_succ_of_ok (M := machine env) hs₁,
      Machine.run_succ_of_ok (M := machine env) hs₂]
    rfl
  · rw [hip₂, hip₁, hrest₂ _ (by rw [hpos₁]; decide), hrest₁ _ (by simp [started])]
    exact hload (by decide) (by decide)
  · rw [hpos₂, hpos₁, hrest₂ _ (by rw [hpos₁]; decide)]
    exact htop₁

/-- **In every state a program reaches** with two operands on the stack, the next operator keeps
the discipline exactly when they are sound. -/
theorem operands_disciplined_iff {env : Env}
    (hmalloc : ∀ mem n, (env.malloc mem n).1.toNat < 2 ^ 63) {rest : UInt64} {words : List UInt64}
    {mem : Mem} (hfits : words.length + 2 < 1000) {n : Nat} {s : State}
    (hrun : (machine env).run n (started env rest words mem) = .ok s) {opcode : UInt64}
    (hop : s.load s.ip = .ok opcode) (hbin : opcode ∈ [2, 3, 4, 5])
    (hoperands : (words.length + 2 : Int) + 2 ≤ s.stackPos) :
    ∃ entry1 entry2, s.load s.stackPos = .ok entry1 ∧ s.load (s.stackPos - 1) = .ok entry2 ∧
      (Disciplined opcode entry1 entry2 s (step env s) ↔ Sound opcode entry1 entry2) := by
  have hhigh : s.stackPos < 1000 := by
    refine run_inside ?_ hrun
    simp only [started]
    omega
  have hne : opcode ≠ 0 := by
    rintro rfl
    simp at hbin
  refine ⟨_, _, State.load_of (by omega) hhigh, State.load_of (by omega) (by omega), ?_⟩
  rw [disciplined_step hop hne]
  exact execute_disciplined (State.load_of (by omega) hhigh) (State.load_of (by omega) (by omega))
    hmalloc hbin (by omega) hhigh

/-- A machine whose allocator hands out one block. -/
def oneBlock : Env where
  stackAddr := 0x10000
  insanityAddr := 0x20000
  malloc mem _ := (0x30000, mem)
  free mem _ := some mem

theorem oneBlock_malloc (mem : Mem) (n : Nat) : (oneBlock.malloc mem n).1.toNat < 2 ^ 63 :=
  show (0x30000 : UInt64).toNat < 2 ^ 63 by decide

/-- The text `insanity` in the memory of `oneBlock`. -/
def insanityText : Mem where
  dom _ := true
  byte a := ([105, 110, 115, 97, 110, 105, 116, 121] : List UInt8).getD (a - 0x20000) 0

/-- The program that adds 3 and 5 keeps the discipline. -/
theorem operands_disciplined_numbers : ∃ s,
    (machine oneBlock).run 2 (started oneBlock 0x40000 [13, 15, 2] insanityText) = .ok s ∧
    ∃ entry1 entry2, s.load s.stackPos = .ok entry1 ∧ s.load (s.stackPos - 1) = .ok entry2 ∧
      (Disciplined 2 entry1 entry2 s (step oneBlock s) ↔ Sound 2 entry1 entry2) := by
  obtain ⟨s, hrun, hop, hpos, -, -⟩ := @run_two_pushes oneBlock 0x40000 13 15 2 3 5 insanityText
    (by decide) (by decide) (fun _ => rfl) (fun _ => rfl)
  exact ⟨s, hrun, operands_disciplined_iff oneBlock_malloc (by decide) hrun hop (by simp)
    (by rw [hpos]; decide)⟩

/-- The program that adds `insanity` to itself does not, in the state before the addition. -/
theorem operands_undisciplined : ¬ ∀ (env : Env) (rest : UInt64) (words : List UInt64) (mem : Mem)
    (n : Nat) (s : State) (entry1 entry2 : UInt64),
    (∀ mem n, (env.malloc mem n).1.toNat < 2 ^ 63) →
    (machine env).run n (started env rest words mem) = .ok s →
    s.load s.ip = .ok 2 → (words.length + 2 : Int) + 2 ≤ s.stackPos →
    s.load s.stackPos = .ok entry1 → s.load (s.stackPos - 1) = .ok entry2 →
    Disciplined 2 entry1 entry2 s (step env s) := by
  intro h
  have hpush (s : State) : execute oneBlock 1 s =
      s.room >>= fun _ => s.push (oneBlock.insanityAddr ||| stringBit) := rfl
  obtain ⟨s, hrun, hop, hpos, hload₁, hload₂⟩ := @run_two_pushes oneBlock 0x40000 1 1 2 _ _
    insanityText (by decide) (by decide) hpush hpush
  have hd := h _ _ _ _ _ s _ _ oneBlock_malloc hrun hop (by rw [hpos]; decide) hload₁ hload₂
  rw [disciplined_step hop (by decide)] at hd
  exact add_strings hload₁ hload₂ oneBlock_malloc (by decide) (by decide) hd

end Quals2017.Insanity
