import Quals2017.Reeses.Server.Dispatch

/-!
# The arithmetic faults of the host (`reeses_revenge/server/cpu.cpp`, `RC4Coprocessor.cpp`)

The host divides by numbers of the guest in `div_emulate` and `divu_emulate` (`cpu.cpp:1242-1254`)
and in `InitKSA` (`RC4Coprocessor.cpp:85-98`). It faults on a zero divisor, and on the quotient of
the least number by -1.

* `NoFault`: a handler does not end in such a fault. One lemma for every family of handlers.
* `initEmulate_noFault`: a key of length 0 is an empty read, which fails before it is divided by.
* **`emulate_fault_iff`**: so the handlers that fault are those of the two divisions, on operands
  the host cannot divide (`DividesSafely`).
* **`run_noFault_iff`**: a run is free of faults exactly when every state before a step divides
  safely.
-/

namespace Quals2017.Reeses.Server

open Quals2017.Lib

variable {σ α β : Type}

/-- A result that is not a fault of the host. -/
def NoFault (r : Except Stop α) : Prop := r ≠ .error .fault

theorem noFault_ok (a : α) : NoFault (.ok a) := nofun

theorem noFault_undefined : NoFault (.error .undefined : Except Stop α) := nofun

theorem doException_noFault (excCode : Nat) (a : α) : NoFault (doException excCode a) := by
  unfold doException
  split
  · exact nofun
  · exact noFault_ok a

theorem NoFault.bind {r : Except Stop α} {f : α → Except Stop β} (hr : NoFault r)
    (hf : ∀ a, r = .ok a → NoFault (f a)) : NoFault (r >>= f) := by
  cases r with
  | error stop => exact fun h => hr (congrArg Except.error (Except.error.inj h))
  | ok a => exact hf a rfl

theorem NoFault.map {r : Except Stop α} (f : α → β) (hr : NoFault r) : NoFault (r.map f) := by
  cases r with
  | error stop => exact fun h => hr (congrArg Except.error (Except.error.inj h))
  | ok a => exact noFault_ok (f a)

theorem noFault_map_iff {f : α → β} {r : Except Stop α} : NoFault (r.map f) ↔ NoFault r := by
  refine ⟨fun h hr => h ?_, .map f⟩
  rw [hr]
  rfl

theorem NoFault.ite {p : Prop} [Decidable p] {r r' : Except Stop α} (h : NoFault r)
    (h' : NoFault r') : NoFault (if p then r else r') := by
  split_ifs
  · exact h
  · exact h'

/-! ## The memory -/

theorem fetch_noFault (addr : Word) (length : Nat) (c : Core σ) : NoFault (c.fetch addr length) := by
  unfold Core.fetch
  split
  · exact noFault_undefined
  · exact .ite (noFault_ok _) (doException_noFault _ _)

theorem store_noFault (addr : Word) (pData : List UInt8) (c : Core σ) :
    NoFault (c.store addr pData) := by
  unfold Core.store
  split
  · exact noFault_undefined
  · exact .ite (noFault_ok _) (doException_noFault _ _)

theorem fetchWord_noFault (addr : Word) (c : Core σ) : NoFault (c.fetchWord addr) :=
  (fetch_noFault addr 4 c).map _

/-! ## The handlers -/

/-- A handler that never faults. -/
def NeverFaults (emulate : Word → Core σ → Except Stop (Core σ)) : Prop :=
  ∀ instr c, NoFault (emulate instr c)

theorem hiLo_noFault (set : Word → Word → Core σ → Core σ) : NeverFaults (hiLo set) :=
  fun _ _ => .ite (doException_noFault _ _) (noFault_ok _)

theorem load_noFault (size : Nat) {fetch : Word → Core σ → Except Stop Word}
    (h : ∀ addr c, NoFault (fetch addr c)) : NeverFaults (load size fetch) := fun _ c =>
  .ite (doException_noFault _ _) (.bind (h _ c) fun _ _ => noFault_ok _)

theorem loadPart_noFault (part : Bool → Word → Word → BitVec 2 → Word) :
    NeverFaults (loadPart part : Word → Core σ → _) := fun _ c =>
  .bind (fetchWord_noFault _ c) fun _ _ => noFault_ok _

theorem storeReg_noFault (size : Nat) {store : Word → Word → Core σ → Except Stop (Core σ)}
    (h : ∀ addr data c, NoFault (store addr data c)) : NeverFaults (storeReg size store) :=
  fun _ c => .ite (doException_noFault _ _) (h _ _ c)

theorem swlEmulate_noFault : NeverFaults (@swlEmulate σ) := fun _ c =>
  .bind (fetchWord_noFault _ c) fun _ _ => store_noFault _ _ c

theorem swrEmulate_noFault : NeverFaults (@swrEmulate σ) := fun _ c =>
  .bind (fetchWord_noFault _ c) fun _ _ => store_noFault _ _ c

/-- **A key that is read is not empty**, so `InitKSA` divides by its length. -/
theorem initEmulate_noFault : NeverFaults (@initEmulate σ) := by
  intro instr c
  refine .bind (fetch_noFault _ _ c) fun keyBuf hkey => ?_
  have hlt : (c.regs (rt instr) &&& 0x7F).toNat < 128 := by
    rw [BitVec.toNat_and]
    exact Nat.and_lt_two_pow _ (by decide : 127 < 2 ^ 7)
  have hne : UInt8.ofNat (c.regs (rt instr) &&& 0x7F).toNat ≠ 0 := by
    intro hzero
    have hnat : (c.regs (rt instr) &&& 0x7F).toNat = 0 := by
      have := congrArg UInt8.toNat hzero
      rw [UInt8.toNat_ofNat', Nat.mod_eq_of_lt (Nat.lt_trans hlt (by decide))] at this
      exact this
    rw [hnat] at hkey
    cases hkey
  dsimp only
  split
  · rename_i hnone
    unfold initKSA at hnone
    rw [if_neg hne] at hnone
    cases hnone
  · exact noFault_ok _

theorem encryptEmulate_noFault : NeverFaults (@encryptEmulate σ) := by
  intro instr c
  refine .bind (fetch_noFault _ _ c) fun rsaBlock _ => ?_
  split
  · exact noFault_undefined
  · exact store_noFault _ _ _

theorem cptwoEmulate_noFault : NeverFaults (@cptwoEmulate σ) := by
  intro instr c
  unfold cptwoEmulate
  split
  · exact initEmulate_noFault instr c
  · exact encryptEmulate_noFault instr c
  · exact doException_noFault _ _

theorem addEmulate_noFault : NeverFaults (@addEmulate σ) :=
  fun _ _ => .ite (doException_noFault _ _) (noFault_ok _)

theorem subEmulate_noFault : NeverFaults (@subEmulate σ) :=
  fun _ _ => .ite (doException_noFault _ _) (noFault_ok _)

theorem addiEmulate_noFault : NeverFaults (@addiEmulate σ) :=
  fun _ _ => .ite (doException_noFault _ _) (noFault_ok _)

theorem riEmulate_noFault : NeverFaults (@riEmulate σ) := fun _ _ => doException_noFault _ _

/-! ## The system calls -/

section Syscalls

variable (host : Host σ)

theorem doRead_noFault (c : Core σ) : NoFault (doRead host c) := by
  unfold doRead
  simp only
  refine .ite (noFault_ok _) (.ite ?_ (noFault_ok _))
  split
  · exact noFault_ok _
  · split_ifs
    · exact noFault_ok _
    · exact .bind (store_noFault _ _ _) fun _ _ => noFault_ok _

theorem doWrite_noFault (c : Core σ) : NoFault (doWrite host c) := by
  unfold doWrite
  simp only
  refine .ite (noFault_ok _) (.ite (.bind (fetch_noFault _ _ c) fun _ _ => ?_) (noFault_ok _))
  split
  · exact noFault_ok _
  · exact noFault_ok _

theorem doMMAP_noFault (c : Core σ) : NoFault (doMMAP c) := by
  unfold doMMAP
  split
  · exact noFault_undefined
  · exact noFault_ok _

theorem syscallJumpTable_noFault : ∀ call ∈ syscallJumpTable host, ∀ c, NoFault (call c) := by
  have hnothing : ∀ c : Core σ, NoFault (doNothing c) := fun _ => noFault_ok _
  have hexit : ∀ c : Core σ, NoFault (doExit c) := fun _ => nofun
  have htime : ∀ c, NoFault (doTime host c) := fun _ => noFault_ok _
  have hrand : ∀ c : Core σ, NoFault (doRand c) := fun _ => noFault_ok _
  simp only [syscallJumpTable, List.forall_mem_cons, List.not_mem_nil, false_implies, implies_true,
    and_true]
  exact ⟨hnothing, hexit, hnothing, doRead_noFault host, doWrite_noFault host, hrand, hnothing,
    hnothing, hnothing, hnothing, hnothing, hnothing, hnothing, htime, doMMAP_noFault⟩

theorem syscallEmulate_noFault : NeverFaults (syscallEmulate host) := by
  intro _ c
  show NoFault (doSyscall host c)
  unfold doSyscall
  simp only
  refine .ite (.ite noFault_undefined ?_) (noFault_ok c)
  split
  · exact syscallJumpTable_noFault host _ (List.mem_of_getElem? ‹_›) _
  · exact noFault_undefined

end Syscalls

/-! ## The control transfers -/

theorem control_noFault (h : Control) (instr pc : Word) (s : Cpu σ) :
    NoFault (h.emulate instr pc s) := by
  have hblez : NoFault (blezEmulate instr pc s) := .ite (doException_noFault _ _) (noFault_ok _)
  have hbgtz : NoFault (bgtzEmulate instr pc s) := .ite (doException_noFault _ _) (noFault_ok _)
  have hjr : NoFault (jrEmulate instr pc s) := .ite (doException_noFault _ _) (noFault_ok _)
  have hlwc3 : NoFault (lwc3Emulate instr pc s) :=
    .ite (.ite (doException_noFault _ _) noFault_undefined) (doException_noFault _ _)
  cases h with
  | blez => exact hblez
  | bgtz => exact hbgtz
  | jr => exact hjr
  | lwc3 => exact hlwc3
  | _ => exact noFault_ok _

/-! ## Decoding -/

/-- A handler that never faults, as `step` calls it. -/
def Handler.Safe (h : Handler σ) : Prop := ∀ instr pc s, NoFault (h.emulate instr pc s)

theorem plain_safe {emulate : Word → Core σ → Except Stop (Core σ)} (h : NeverFaults emulate) :
    (Handler.plain emulate).Safe := fun instr _ s => (h instr s.core).map _

theorem control_safe (h : Control) : (Handler.control h : Handler σ).Safe := control_noFault h

theorem RI_safe : (RI : Handler σ).Safe := plain_safe riEmulate_noFault

/-- What stands before and behind the divisions in `functJumpTable`. -/
theorem functJumpTable_safe (host : Host σ) :
    (∀ h ∈ (functJumpTable host).take 26, h.Safe) ∧
      ∀ h ∈ (functJumpTable host).drop 28, h.Safe := by
  have hsyscall := plain_safe (syscallEmulate_noFault host)
  have hadd := plain_safe (@addEmulate_noFault σ)
  have hsub := plain_safe (@subEmulate_noFault σ)
  simp only [functJumpTable, List.take_succ_cons, List.drop_succ_cons, List.drop_zero,
    List.take_zero, List.forall_mem_cons, RI_safe, control_safe, true_and, List.not_mem_nil,
    false_implies, implies_true, and_true, hsyscall, hadd, hsub]
  and_intros
  all_goals first
    | exact plain_safe fun _ _ => noFault_ok _
    | exact plain_safe (hiLo_noFault _)
    | exact plain_safe fun _ _ => doException_noFault _ _

/-- What stands behind `funct_emulate` and `regimm_emulate` in `opcodeJumpTable`. -/
theorem opcodeJumpTable_safe (host : Host σ) (instr : Word) :
    ∀ h ∈ (opcodeJumpTable host instr).drop 2, h.Safe := by
  have haddi := plain_safe (@addiEmulate_noFault σ)
  have hcptwo := plain_safe (@cptwoEmulate_noFault σ)
  have hswl := plain_safe (@swlEmulate_noFault σ)
  have hswr := plain_safe (@swrEmulate_noFault σ)
  simp only [opcodeJumpTable, List.drop_succ_cons, List.drop_zero, List.forall_mem_cons, RI_safe,
    control_safe, true_and, List.not_mem_nil, false_implies, implies_true, and_true, haddi, hcptwo,
    hswl, hswr]
  and_intros
  all_goals first
    | exact plain_safe fun _ _ => noFault_ok _
    | exact plain_safe fun _ _ => doException_noFault _ _
    | exact plain_safe (loadPart_noFault _)
    | exact plain_safe (load_noFault _ fetchWord_noFault)
    | exact plain_safe (load_noFault _ fun addr c => ((fetch_noFault addr _ c).map _).map _)
    | exact plain_safe (storeReg_noFault _ fun addr _ c => store_noFault addr _ c)

theorem regimmEmulate_safe (instr : Word) : (regimmEmulate instr : Handler σ).Safe := by
  rcases @regimmEmulate_cases σ instr with h | ⟨c, -, h⟩
  · rw [h]
    exact RI_safe
  · rw [h]
    exact control_safe c

/-- The `funct` field of `div`. -/
def functDiv : BitVec 6 := 26

/-- The `funct` field of `divu`. -/
def functDivu : BitVec 6 := 27

/-- The operands of a division are ones the host can divide. -/
def DividesSafely (instr : Word) (c : Core σ) : Prop :=
  let s := c.regs (rs instr)
  let t := c.regs (rt instr)
  opcode instr = 0 →
    (funct instr = functDiv → t ≠ 0 ∧ ¬ (s = BitVec.intMin 32 ∧ t = -1)) ∧
    (funct instr = functDivu → t ≠ 0)

theorem divEmulate_fault_iff (instr : Word) (c : Core σ) : NoFault (divEmulate instr c) ↔
    c.regs (rt instr) ≠ 0 ∧
      ¬ (c.regs (rs instr) = BitVec.intMin 32 ∧ c.regs (rt instr) = -1) := by
  unfold divEmulate
  simp only
  split_ifs with h
  · exact iff_of_false (fun hno => hno rfl) fun hn => h.elim hn.1 hn.2
  · exact iff_of_true (noFault_ok _) (not_or.mp h)

theorem divuEmulate_fault_iff (instr : Word) (c : Core σ) : NoFault (divuEmulate instr c) ↔
    c.regs (rt instr) ≠ 0 := by
  unfold divuEmulate
  simp only
  split_ifs with h
  · exact iff_of_false (fun hno => hno rfl) fun hn => hn h
  · exact iff_of_true (noFault_ok _) h

/-- An entry behind the first `k`. -/
theorem mem_drop_of_getElem? {l : List α} {i k : Nat} {a : α} (h : l[i]? = some a) (hk : k ≤ i) :
    a ∈ l.drop k := by
  refine List.mem_of_getElem? (i := i - k) ?_
  rw [List.getElem?_drop, Nat.add_sub_cancel' hk]
  exact h

/-- The handler of a function is safe, or that of a division. -/
theorem functEmulate_safe (host : Host σ) {instr : Word} (hdiv : funct instr ≠ functDiv)
    (hdivu : funct instr ≠ functDivu) : (functEmulate host instr).Safe := by
  have hentry := functEmulate_eq host instr
  have h26 : (funct instr).toNat ≠ 26 := fun h => hdiv (BitVec.eq_of_toNat_eq h)
  have h27 : (funct instr).toNat ≠ 27 := fun h => hdivu (BitVec.eq_of_toNat_eq h)
  by_cases hlt : (funct instr).toNat < 26
  · refine (functJumpTable_safe host).1 _ (List.mem_of_getElem? (i := (funct instr).toNat) ?_)
    rw [List.getElem?_take_of_lt hlt, hentry]
  · exact (functJumpTable_safe host).2 _ (mem_drop_of_getElem? hentry (by omega))

/-- **A handler faults** on the operands of a division that the host cannot divide, and never
else. -/
theorem emulate_noFault_iff (host : Host σ) (instr pc : Word) (s : Cpu σ) :
    NoFault ((decode host instr).emulate instr pc s) ↔ DividesSafely instr s.core := by
  unfold DividesSafely
  by_cases hop : opcode instr = 0
  · have hdecode : decode host instr = functEmulate host instr := by
      rw [decode, hop]
      rfl
    rw [hdecode, forall_prop_of_true hop]
    by_cases hdiv : funct instr = functDiv
    · have hhandler : functEmulate host instr = .plain divEmulate := by
        rw [functEmulate, hdiv]
        rfl
      have hne : funct instr ≠ functDivu := by rw [hdiv]; decide
      have hmap : NoFault ((Handler.plain divEmulate).emulate instr pc s) ↔
          NoFault (divEmulate instr s.core) := noFault_map_iff
      rw [hhandler, hmap, divEmulate_fault_iff, forall_prop_of_true hdiv]
      exact (and_iff_left fun h => absurd h hne).symm
    by_cases hdivu : funct instr = functDivu
    · have hhandler : functEmulate host instr = .plain divuEmulate := by
        rw [functEmulate, hdivu]
        rfl
      have hmap : NoFault ((Handler.plain divuEmulate).emulate instr pc s) ↔
          NoFault (divuEmulate instr s.core) := noFault_map_iff
      rw [hhandler, hmap, divuEmulate_fault_iff, forall_prop_of_true hdivu]
      exact (and_iff_right fun h => absurd h hdiv).symm
    · exact iff_of_true (functEmulate_safe host hdiv hdivu instr pc s)
        ⟨fun h => absurd h hdiv, fun h => absurd h hdivu⟩
  · refine iff_of_true ?_ fun h => absurd h hop
    by_cases hone : opcode instr = 1
    · have hdecode : decode host instr = regimmEmulate instr := by
        rw [decode, hone]
        rfl
      rw [hdecode]
      exact regimmEmulate_safe instr instr pc s
    · have h0 : (opcode instr).toNat ≠ 0 := fun h => hop (BitVec.eq_of_toNat_eq h)
      have h1 : (opcode instr).toNat ≠ 1 := fun h => hone (BitVec.eq_of_toNat_eq h)
      exact opcodeJumpTable_safe host instr _ (mem_drop_of_getElem? (decode_eq host instr) (by omega))
        instr pc s

/-! ## Runs -/

/-- The next instruction, if one is fetched, divides safely. -/
def NextDividesSafely (s : Cpu σ) : Prop :=
  ∀ instr, s.core.fetchWord s.pc = .ok instr → DividesSafely instr s.core

theorem retire_noFault (c : Core σ) : NoFault (retire c) := by
  unfold retire
  dsimp only
  split_ifs
  · exact .bind (doException_noFault _ _) fun _ _ => noFault_ok _
  · exact noFault_ok _

theorem execute_noFault_iff (host : Host σ) (s : Cpu σ) :
    NoFault (s.execute host) ↔ NextDividesSafely s := by
  unfold Cpu.execute NextDividesSafely
  cases hfetch : s.core.fetchWord s.pc with
  | error stop =>
    have hno := fetchWord_noFault s.pc s.core
    rw [hfetch] at hno
    exact iff_of_true (fun h => hno (congrArg _ (Except.error.inj h))) nofun
  | ok instr =>
    have hemulate := emulate_noFault_iff host instr s.pc s
    refine Iff.trans ?_ (hemulate.trans ⟨fun h _ hinstr => Except.ok.inj hinstr ▸ h, fun h => h _ rfl⟩)
    show NoFault ((decode host instr).emulate instr s.pc s >>= _) ↔ _
    cases (decode host instr).emulate instr s.pc s with
    | error stop => exact ⟨fun h he => h (congrArg _ (Except.error.inj he)),
        fun h he => h (congrArg _ (Except.error.inj he))⟩
    | ok t =>
      refine iff_of_true ?_ (noFault_ok t)
      exact .bind (noFault_ok t) fun t _ => .bind (retire_noFault t.core) fun _ _ => noFault_ok _

/-- **A step** is free of faults exactly when its instruction divides safely. -/
theorem step_noFault_iff (host : Host σ) (s : Cpu σ) :
    (∀ pc, s.step host ≠ .error (.fault, pc)) ↔ NextDividesSafely s := by
  unfold Cpu.step
  generalize hepc : (if s.delayState = .delayslot then s.nextEpc else s.pc) = nextEpc
  have hexec := execute_noFault_iff host { s with nextEpc }
  refine Iff.trans ?_ hexec
  dsimp only
  cases Cpu.execute host { s with nextEpc } with
  | ok t => exact iff_of_true (fun _ => nofun) (noFault_ok t)
  | error stop =>
    constructor
    · intro h he
      exact h nextEpc (by rw [Except.error.inj he]; rfl)
    · intro h pc he
      have hstop : stop = .fault := congrArg Prod.fst (Except.error.inj he)
      exact h (congrArg _ hstop)

/-- **A run is free of faults** exactly when every state before a step divides safely. -/
theorem run_noFault_iff (host : Host σ) (s : Cpu σ) :
    (∀ n pc, (Cpu.machine host).run n s ≠ .error (.fault, pc)) ↔
      ∀ n t, (Cpu.machine host).run n s = .ok t → NextDividesSafely t := by
  constructor
  · intro h n t hrun
    refine (step_noFault_iff host t).mp fun pc hstep => h (n + 1) pc ?_
    exact Machine.run_eq_error_iff.mpr ⟨n, Nat.lt_succ_self n, t, hrun, hstep⟩
  · intro h n pc herror
    obtain ⟨k, -, t, hrun, hstep⟩ := Machine.run_eq_error_iff.mp herror
    exact (step_noFault_iff host t).mpr (h k t hrun) pc hstep

end Quals2017.Reeses.Server
