import Quals2017.Faggin.Handlers

/-!
# The call stack of the 4004 (`faggin/mcs4.c:532-543`, `662-675`)

A `Run` keeps beside the machine the stack of the addresses that follow the `JMS` not returned from
yet. At most three are nested, and `DCL` never selects the RAM behind `ram`.

* `jms_saved`, `bbl_saved`: `JMS` pushes the following address on the saved ones, `BBL` pops it
  into the program counter.
* `run_saved`: the saved addresses are that stack.
* **`bbl_returns`**: a `BBL` returns to the address following the matching `JMS`, and no handler but
  these two changes a saved address.
-/

namespace Quals2017.Faggin

open Quals2017.Lib

variable {h : Host}

/-- The saved return addresses, the last one first. -/
def saved (s : Mcs4) : List (BitVec 16) := (List.range s.sp.toNat).map fun k => slot s (k + 1)

/-- The address following the two bytes of a `JMS`. -/
def following (s : Mcs4) : BitVec 16 := nextPc (nextPc (slot s 0))

/-- The stack of calls after an instruction. -/
def calls (s : Mcs4) (stack : List (BitVec 16)) : List (BitVec 16) :=
  match op s with
  | .jms => following s :: stack
  | .bbl => stack.tail
  | _ => stack

/-- No fourth call, and no `DCL` of a bank behind `ram`. -/
structure Allowed (s : Mcs4) (stack : List (BitVec 16)) : Prop where
  jms : op s = .jms → stack.length < 3
  dcl : op s = .dcl → s.a &&& 7 ≠ 2 ∧ s.a &&& 7 ≠ 3

/-- The states a program reaches, with their stack of calls. -/
inductive Run (h : Host) (prom : Nat → Byte) : Mcs4 → List (BitVec 16) → Prop
  | init : Run h prom (init prom) []
  | step {s s' : Mcs4} {stack : List (BitVec 16)} (run : Run h prom s stack)
      (allowed : Allowed s stack) (hstep : step h s = some ((), s')) :
      Run h prom s' (calls s stack)

theorem saved_length (s : Mcs4) : (saved s).length = s.sp.toNat := by
  rw [saved, List.length_map, List.length_range]

theorem saved_getElem {s : Mcs4} {k : Nat} (hk : k < (saved s).length) :
    (saved s)[k] = slot s (k + 1) := by
  simp only [saved, List.getElem_map, List.getElem_range]

theorem saved_ext {s : Mcs4} {stack : List (BitVec 16)} (hlen : s.sp.toNat = stack.length)
    (hslot : ∀ k (hk : k < stack.length), slot s (k + 1) = stack[k]) : saved s = stack := by
  refine List.ext_getElem ?_ fun k hk hk' => ?_
  · rw [saved_length, hlen]
  · rw [saved_getElem]
    exact hslot k hk'

/-- What leaves the registers alone leaves the saved addresses alone. -/
theorem saved_of_moves {s s' : Mcs4} (hm : Moves s s') (hin : Inside s) (hsp : s.sp.toNat < 4) :
    saved s' = saved s := by
  unfold saved
  rw [hm.sp]
  refine List.map_congr_left fun k hk => ?_
  rw [List.mem_range] at hk
  exact hm.saved hin (k + 1) (Nat.succ_pos k) (by omega)

/-! ## One instruction -/

theorem slot_beforePush_zero (s : Mcs4) : slot (beforePush s) 0 = following s := by
  change slot (incremented (incremented _)) 0 = _
  rw [slot_incremented_zero, slot_incremented_zero]
  rfl

theorem slot_beforePush_succ (s : Mcs4) (k : Nat) : slot (beforePush s) (k + 1) = slot s (k + 1) := by
  change slot (incremented (incremented _)) (k + 1) = _
  rw [slot_incremented_succ, slot_incremented_succ]
  rfl

/-- **`JMS` pushes the following address.** -/
theorem jms_saved {s s' : Mcs4} (hsp : s.sp.toNat < 3) (hs : opJms h s = some ((), s')) :
    saved s' = following s :: saved s ∧ (Inside s → Inside s') := by
  rw [opJms_eq] at hs
  cases hs
  have hnat : ((s.sp + 1) &&& 0x3).toNat = s.sp.toNat + 1 := by
    have hadd : (s.sp + 1).toNat = s.sp.toNat + 1 := by
      rw [BitVec.toNat_add]
      exact Nat.mod_eq_of_lt (show s.sp.toNat + 1 < 16 by omega)
    rw [BitVec.toNat_and, hadd]
    exact Nat.and_two_pow_sub_one_of_lt_two_pow (n := 2) (by omega)
  rw [hnat]
  have hmem := IsTrans.trans _ _ _ (onlyMem_pushed (s.sp.toNat + 1) (beforePush s))
    (onlyMem_setSlot (pushed (s.sp.toNat + 1) (beforePush s)) 0 (jmsTarget s))
  have hlen : (setSlot (pushed (s.sp.toNat + 1) (beforePush s)) 0 (jmsTarget s)).sp.toNat =
      s.sp.toNat + 1 := by
    rw [hmem]
    exact hnat
  refine ⟨saved_ext ?_ fun k hk => ?_, fun hin => ?_⟩
  · rw [hlen, List.length_cons, saved_length]
  · rw [List.length_cons, saved_length] at hk
    rw [slot_setSlot_ne (Nat.succ_ne_zero k), slot_pushed, if_pos ⟨Nat.succ_pos k, by omega⟩,
      Nat.succ_sub_one]
    cases k with
    | zero => exact slot_beforePush_zero s
    | succ k =>
      rw [slot_beforePush_succ, List.getElem_cons_succ, saved_getElem]
  · rw [hmem]
    exact ⟨hin.ms, hin.ne_four, hin.ne_three⟩

/-- **`BBL` pops the last address into the program counter.** -/
theorem bbl_saved {s s' : Mcs4} (hsp : s.sp.toNat < 4) (hs : opBbl h s = some ((), s')) :
    saved s' = (saved s).tail ∧ (∀ r stack, saved s = r :: stack → slot s' 0 = r) ∧
      (Inside s → Inside s') := by
  rcases Nat.eq_zero_or_pos s.sp.toNat with hzero | hpos
  · have hsp0 : s.sp = 0 := BitVec.eq_of_toNat_eq hzero
    rw [opBbl_empty hsp0] at hs
    cases hs
    have hnil : ∀ t : Mcs4, t.sp = 0 → saved t = [] := fun t ht => by rw [saved, ht]; rfl
    refine ⟨?_, fun r stack hr => ?_, fun hin => ⟨hin.ms, hin.ne_four, hin.ne_three⟩⟩
    · rw [hnil s hsp0]
      exact hnil _ hsp0
    · rw [hnil s hsp0] at hr
      cases hr
  · rw [opBbl_eq hpos hsp] at hs
    cases hs
    have hmem := IsTrans.trans _ _ _ (onlyMem_popped s.sp.toNat 0 (beforePop s))
      (onlyMem_setSlot (popped 0 s.sp.toNat (beforePop s)) s.sp.toNat 0)
    generalize hfinal : setSlot (popped 0 s.sp.toNat (beforePop s)) s.sp.toNat 0 = t at *
    have hslot : ∀ k, k < s.sp.toNat → slot t k = slot s (k + 1) := by
      intro k hk
      rw [← hfinal, slot_setSlot_ne (Nat.ne_of_lt hk), slot_popped, if_pos (by omega)]
      rfl
    have hpred : (s.sp - 1).toNat = s.sp.toNat - 1 := by
      have hle : (1 : BitVec 4) ≤ s.sp := BitVec.le_def.mpr (Nat.succ_le_of_lt hpos)
      exact BitVec.toNat_sub_of_le hle
    refine ⟨saved_ext ?_ fun k hk => ?_, fun r stack hr => ?_, fun hin => ?_⟩
    · rw [List.length_tail, saved_length]
      exact hpred
    · rw [List.length_tail, saved_length] at hk
      rw [List.getElem_tail, saved_getElem]
      exact hslot (k + 1) (by omega)
    · have hlen : 0 < (saved s).length := by rwa [saved_length]
      have hhead := saved_getElem hlen
      simp only [hr, List.getElem_cons_zero] at hhead
      rw [hhead]
      exact hslot 0 hpos
    · rw [hmem]
      exact ⟨hin.ms, hin.ne_four, hin.ne_three⟩

/-! ## Runs -/

/-- What a handler but `JMS` and `BBL` does to the saved addresses. -/
theorem other_saved {s s' : Mcs4} (hin : Inside s) (hsp : s.sp.toNat < 4)
    (hdcl : op s = .dcl → s.a &&& 7 ≠ 2 ∧ s.a &&& 7 ≠ 3) (hjms : op s ≠ .jms) (hbbl : op s ≠ .bbl)
    (hs : step h s = some ((), s')) : saved s' = saved s ∧ Inside s' := by
  rw [step_eq] at hs
  by_cases hop : op s = .dcl
  · obtain ⟨h2, h3⟩ := hdcl hop
    obtain ⟨h4, h3'⟩ := commandLine_ne s.a h2 h3
    rw [hop, exec, opDcl_eq] at hs
    cases hs
    refine ⟨?_, ⟨hin.ms, h4, h3'⟩⟩
    exact List.map_congr_left fun k _ => slot_incremented_succ _ k
  · have hmoves : Moves s s' := by
      by_cases hjin : op s = .jin
      · rw [hjin, exec, opJin_eq] at hs
        cases hs
        exact moves_setSlot s _
      · exact (exec_ticks hjin hjms hbbl hop s () s' hs).toMoves
    exact ⟨saved_of_moves hmoves hin hsp, hmoves.inside hin⟩

/-- **The saved addresses are the stack of calls.** -/
theorem run_saved {prom : Nat → Byte} {s : Mcs4} {stack : List (BitVec 16)}
    (hrun : Run h prom s stack) : Inside s ∧ saved s = stack ∧ stack.length < 4 := by
  induction hrun with
  | init =>
    have hin : Inside (init prom) :=
      ⟨show (0 : BitVec 16).toNat < 256 by decide, show (0 : BitVec 4) ≠ 4 by decide,
        show (0 : BitVec 4) ≠ 3 by decide⟩
    exact ⟨hin, rfl, Nat.succ_pos 3⟩
  | @step s s' stack run allowed hstep ih =>
    obtain ⟨hin, hsaved, hlen⟩ := ih
    have hsp : s.sp.toNat = stack.length := by rw [← saved_length, hsaved]
    unfold calls
    split
    · next hjms =>
      have hlt := allowed.jms hjms
      rw [step_eq, hjms] at hstep
      obtain ⟨hpush, hin'⟩ := jms_saved (by omega) hstep
      exact ⟨hin' hin, by rw [hpush, hsaved], Nat.succ_lt_succ hlt⟩
    · next hbbl =>
      rw [step_eq, hbbl] at hstep
      obtain ⟨hpop, -, hin'⟩ := bbl_saved (by omega) hstep
      refine ⟨hin' hin, by rw [hpop, hsaved], ?_⟩
      rw [List.length_tail]
      omega
    · next hjms hbbl =>
      obtain ⟨hkeep, hin'⟩ := other_saved hin (by omega) allowed.dcl hjms hbbl hstep
      exact ⟨hin', by rw [hkeep, hsaved], hlen⟩

/-- **Calls return.** -/
theorem bbl_returns {prom : Nat → Byte} {s s' : Mcs4} {stack : List (BitVec 16)}
    (hrun : Run h prom s stack) (hallowed : Allowed s stack) (hstep : step h s = some ((), s')) :
    (op s = .bbl → ∀ r stack', stack = r :: stack' → slot s' 0 = r) ∧
      (op s ≠ .jms → op s ≠ .bbl → saved s' = saved s) := by
  obtain ⟨hin, hsaved, hlen⟩ := run_saved hrun
  have hsp : s.sp.toNat < 4 := by
    rw [← saved_length, hsaved]
    exact hlen
  refine ⟨fun hbbl r stack' hr => ?_, fun hjms hbbl => ?_⟩
  · rw [step_eq, hbbl] at hstep
    exact (bbl_saved hsp hstep).2.1 r stack' (hsaved.trans hr)
  · exact (other_saved hin hsp hallowed.dcl hjms hbbl hstep).1

/-! A program of one call. -/

/-- `JMS 4`, and `BBL 0` at 4. -/
def callRom : Nat → Byte
  | 0 => 0x50
  | 1 => 0x04
  | 4 => 0xC0
  | _ => 0

/-- The machine after the call. -/
def called : Mcs4 := setSlot (pushed 1 (beforePush (init callRom))) 0 (jmsTarget (init callRom))

theorem slot_init : slot (init callRom) 0 = 0 := rfl

theorem instruction_init : instruction (init callRom) = 0x50 := rfl

theorem jmsTarget_init : jmsTarget (init callRom) = 4 := by
  have hnext : instruction (incremented (init callRom)) = 0x04 := by
    rw [instruction, slot_incremented_zero, slot_init]
    exact incremented_prom (show 1 < 2389 by decide) _
  rw [jmsTarget, hnext, instruction_init]
  rfl

theorem op_called : op called = .bbl := by
  have hcode : instruction called = 0xC0 := by
    have hprom : called.mem 4 = callRom 4 := by
      have hlow : 4 < 2389 := by decide
      rw [called, setSlot_prom hlow, pushed, pushed, setSlot_prom hlow, beforePush,
        incremented_prom hlow, incremented_prom hlow]
      rfl
    rw [instruction, called, slot_setSlot_self, jmsTarget_init]
    exact hprom
  rw [op, hcode]
  decide

theorem run_called : Run h callRom called [2] := by
  have hjms : op (init callRom) = .jms := by
    rw [op, instruction_init]
    decide
  refine Run.step .init ⟨fun _ => by decide, fun hdcl => ?_⟩ ?_
  · rw [hjms] at hdcl
    cases hdcl
  · rw [step_eq, hjms]
    exact opJms_eq _

theorem bbl_returns_callRom : ∃ s', step ⟨true, fun _ _ => 0⟩ called = some ((), s') ∧
    slot s' 0 = 2 := by
  have hallowed : Allowed called [2] := by
    constructor
    all_goals
      intro hop
      rw [op_called] at hop
      cases hop
  have hsp : called.sp.toNat = 1 := rfl
  have hstep := opBbl_eq (h := ⟨true, fun _ _ => 0⟩) (s := called) (by omega) (by omega)
  have hret := bbl_returns run_called hallowed (by rw [step_eq, op_called]; exact hstep)
  exact ⟨_, by rw [step_eq, op_called]; exact hstep, hret.1 op_called 2 [] rfl⟩

end Quals2017.Faggin
