import Quals2017.Faggin.Frame

/-!
# The handlers one by one (`faggin/mcs4.c:425-1133`)

* **`exec_ticks`**: every handler but `JMS`, `BBL`, `JIN` and `DCL` leaves `sp` and the saved
  addresses alone and takes a cycle.
* `opDcl_eq`, `opJin_eq`, `opJms_eq`, `opBbl_eq`, `opBbl_empty`: what these four do.
* `pushLoop_eq`, `popLoop_eq`: the loops of `JMS` and `BBL` shift the slots up and down.
-/

namespace Quals2017.Faggin

open Quals2017.Lib

variable {h : Host}

theorem nibble_lt (tmp : BitVec 4) : tmp.toNat < 16 := tmp.isLt

theorem pairOf_lt (b : Byte) : pairOf b < 8 := by
  have hle : b.toNat &&& 0xF ≤ 0xF := Nat.and_le_right
  exact half_lt (Nat.lt_succ_of_le hle)

theorem ticks_opJcn : Keeps Ticks (opJcn h) :=
  moves_bind moves_getPc fun _ => moves_bind moves_fetchTmp fun _ => ticks_bind ticks_incPc fun _ =>
    keeps_get fun _ => keeps_ite (keeps_bind moves_fetch fun _ => moves_setPc _)
      (ticks_moves ticks_incPc)

theorem ticks_opFim : Keeps Ticks (opFim h) :=
  moves_bind moves_fetch fun b => moves_bind (moves_scalars fun _ => rfl) fun _ =>
    ticks_bind ticks_incPc fun _ => keeps_bind moves_fetch fun _ =>
      keeps_bind (moves_setRegPair (pairOf_lt b) _) fun _ => ticks_moves ticks_incPc

/-- `ms` takes the eight bits of a register pair. -/
theorem ticks_opSrc : Keeps Ticks (opSrc h) := by
  refine moves_bind moves_fetch fun _ => moves_bind (moves_getRegPair _) fun data =>
    moves_bind (keeps_modify fun s => ?_) fun _ => ticks_incPc
  refine ⟨rfl, rfl, fun _ => ?_, Nat.le_refl _, fun _ _ _ _ => rfl⟩
  have hdata := data.isLt
  rw [BitVec.toNat_setWidth]
  omega

theorem ticks_opFin : Keeps Ticks (opFin h) :=
  moves_bind moves_fetch fun b => moves_bind (moves_scalars fun _ => rfl) fun _ =>
    moves_bind moves_fetch fun _ => moves_bind (moves_getRegPair _) fun _ =>
      moves_bind (moves_setRegPair (pairOf_lt b) _) fun _ => ticks_incPc

theorem ticks_opJun : Keeps Ticks (opJun h) :=
  moves_bind moves_getPc fun _ => moves_bind (moves_scalars fun _ => rfl) fun _ =>
    ticks_bind ticks_incPc fun _ => keeps_bind moves_getPc fun _ => moves_setPc _

theorem ticks_opInc : Keeps Ticks (opInc h) :=
  moves_bind moves_fetchTmp fun tmp => moves_bind (moves_getR _) fun _ =>
    moves_bind (moves_setR (nibble_lt tmp) _) fun _ => ticks_incPc

theorem ticks_opIsz : Keeps Ticks (opIsz h) :=
  moves_bind moves_fetchTmp fun tmp => ticks_bind ticks_incPc fun _ =>
    keeps_bind (moves_getR _) fun _ => keeps_bind (moves_setR (nibble_lt tmp) _) fun _ =>
      keeps_bind (moves_getR _) fun _ => keeps_ite
        (keeps_bind moves_getPc fun _ => keeps_bind moves_fetch fun _ => moves_setPc _)
        (ticks_moves ticks_incPc)

/-- A register read into the accumulator. -/
theorem ticks_fromR {f : Byte → Mcs4 → Mcs4}
    (hf : ∀ val s, f val s =
      { s with tmp := (f val s).tmp, a := (f val s).a, c := (f val s).c }) :
    Keeps Ticks (do
      let tmp ← fetchTmp h
      let val ← getR h tmp.toNat
      modify (f val)
      incPc h) :=
  moves_bind moves_fetchTmp fun _ => moves_bind (moves_getR _) fun val =>
    moves_bind (moves_scalars (hf val)) fun _ => ticks_incPc

theorem ticks_opAdd : Keeps Ticks (opAdd h) := ticks_fromR fun _ _ => rfl

theorem ticks_opSub : Keeps Ticks (opSub h) := ticks_fromR fun _ _ => rfl

theorem ticks_opLd : Keeps Ticks (opLd h) := ticks_fromR fun _ _ => rfl

theorem ticks_opXch : Keeps Ticks (opXch h) :=
  moves_bind moves_fetch fun b => keeps_get fun _ => moves_bind (moves_getR _) fun _ =>
    moves_bind (moves_scalars fun _ => rfl) fun _ =>
      moves_bind (moves_setR (nibble_lt (b.setWidth 4)) _) fun _ => ticks_incPc

theorem ticks_opLdm : Keeps Ticks (opLdm h) :=
  moves_bind moves_fetchTmp fun _ => moves_bind (moves_scalars fun _ => rfl) fun _ => ticks_incPc

theorem mainChar_lt (s : Mcs4) : mainChar s < 16 := by
  have hle : s.ms.toNat &&& 0xF ≤ 0xF := Nat.and_le_right
  exact Nat.lt_succ_of_le hle

theorem ticks_opWrm : Keeps Ticks (opWrm h) :=
  keeps_get fun s => moves_bind (moves_setRam (Nat.lt_trans (mainChar_lt s) (by decide)) _)
    fun _ => ticks_incPc

theorem ramout_addr (i : Nat) : Access.addr ⟨.ramout, [i]⟩ = 2372 + i := by
  simp only [Access.addr, Access.place, Arr.base, Arr.dims, Nat.zero_mul, Nat.zero_add]

theorem portBank_le {cmram : BitVec 4} {bank : Nat} (hbank : portBank cmram = some bank) :
    bank < 8 := by
  unfold portBank at hbank
  split at hbank <;> cases hbank <;> decide

/-- `setRamout`, on the bank that is selected. -/
theorem setRamout_eq (s : Mcs4) : setRamout h s = (match portBank s.cmram with
    | some bank => store h ⟨.ramout, [bank ||| s.ms.toNat >>> 7]⟩
      (if s.ms &&& 0x40 ≠ 0 then s.a.setWidth 8 else s.a.setWidth 8 <<< 4)
    | none => pure ()) s := rfl

/-- The eight ports of all banks reach into `r` at most. -/
theorem moves_setRamout : Keeps Moves (setRamout h) := by
  intro s a s' hs
  rw [setRamout_eq] at hs
  cases hbank : portBank s.cmram with
  | none =>
    rw [hbank] at hs
    exact keeps_pure () s a s' hs
  | some bank =>
    rw [hbank] at hs
    dsimp only at hs
    have hpoke := store_state hs
    by_cases hin : Inside s
    · have hms : s.ms.toNat >>> 7 < 2 ^ 3 := by
        have := hin.ms
        rw [Nat.shiftRight_eq_div_pow]
        omega
      have hport := Nat.or_lt_two_pow (portBank_le hbank) hms
      rw [hpoke, ramout_addr]
      exact moves_poke (by omega) s _
    · have hmem : OnlyMem s s' := by
        rw [hpoke]
        rfl
      exact hmem.moves hin

theorem ticks_opWmp : Keeps Ticks (opWmp h) := moves_bind moves_setRamout fun _ => ticks_incPc

theorem promio_addr (i : Nat) : Access.addr ⟨.promio, [i]⟩ = 2048 + i := by
  simp only [Access.addr, Access.place, Arr.base, Arr.dims, Nat.zero_mul, Nat.zero_add]

/-- The ports of all sixteen pages reach into `ram` at most. -/
theorem moves_setPromio (tmp a : BitVec 4) : Keeps Moves (setPromio h tmp a) := by
  have hx : Access.addr ⟨.promio, [tmp.toNat / 2]⟩ < 2384 := by
    have := tmp.isLt
    rw [promio_addr]
    omega
  exact keeps_ite (keeps_bind (moves_update hx _) fun _ => moves_update hx _)
    (keeps_bind (moves_update hx _) fun _ => moves_update hx _)

theorem ticks_opWrr : Keeps Ticks (opWrr h) :=
  moves_bind moves_romTmp fun _ => keeps_get fun _ => moves_bind (moves_setPromio _ _) fun _ =>
    ticks_incPc

theorem statusTmp_le {s s' : Mcs4} {tmp : Nat} (hs : statusTmp h s = some (tmp, s')) :
    tmp < 4 := by
  obtain ⟨b, t, -, hs⟩ := bind_eq_some hs
  obtain ⟨-, u, -, hs⟩ := bind_eq_some hs
  cases hs
  have hle : b.toNat % 16 &&& 3 ≤ 3 := Nat.and_le_right
  simpa [BitVec.toNat_and, BitVec.toNat_setWidth] using Nat.lt_succ_of_le hle

theorem ticks_opWr : Keeps Ticks (opWr h) := by
  intro s a s' hs
  obtain ⟨tmp, t, htmp, hs⟩ := bind_eq_some hs
  have hlt := statusTmp_le htmp
  have hmoves := moves_statusTmp s tmp t htmp
  have hticks : Ticks t s' := (keeps_get fun _ => moves_bind (moves_setRam (by omega) _) fun _ =>
    ticks_incPc : Keeps Ticks _) t a s' hs
  exact ⟨IsTrans.trans _ _ _ hmoves hticks.toMoves, Nat.lt_of_le_of_lt hmoves.cycles hticks.tick⟩

/-- A character of RAM read into the accumulator. -/
theorem ticks_fromRam {idx : Mcs4 → Nat} {f : Byte → Mcs4 → Mcs4}
    (hf : ∀ val s, f val s =
      { s with tmp := (f val s).tmp, a := (f val s).a, c := (f val s).c }) :
    Keeps Ticks (do
      let s ← get
      let val ← getRam h (idx s)
      modify (f val)
      incPc h) :=
  keeps_get fun _ => moves_bind (moves_getRam _) fun val =>
    moves_bind (moves_scalars (hf val)) fun _ => ticks_incPc

theorem ticks_opSbm : Keeps Ticks (opSbm h) :=
  moves_bind (moves_scalars fun _ => rfl) fun _ => ticks_fromRam fun _ _ => rfl

theorem ticks_opRdm : Keeps Ticks (opRdm h) := ticks_fromRam fun _ _ => rfl

theorem ticks_opAdm : Keeps Ticks (opAdm h) :=
  moves_bind (moves_scalars fun _ => rfl) fun _ => ticks_fromRam fun _ _ => rfl

theorem ticks_opRdr : Keeps Ticks (opRdr h) :=
  moves_bind moves_romTmp fun _ => moves_bind (moves_load _) fun _ =>
    moves_bind (moves_scalars fun _ => rfl) fun _ => ticks_incPc

theorem ticks_opRd : Keeps Ticks (opRd h) :=
  moves_bind moves_statusTmp fun _ => moves_bind (moves_getRam _) fun _ =>
    moves_bind (moves_scalars fun _ => rfl) fun _ => ticks_incPc

theorem ticks_accumulator (f : BitVec 4 → BitVec 1 → BitVec 4 × BitVec 1)
    (tmp : BitVec 4 → BitVec 4 → BitVec 4) : Keeps Ticks (accumulator h f tmp) :=
  moves_bind (moves_scalars fun _ => rfl) fun _ => ticks_incPc

/-- **What a handler leaves alone.** -/
theorem exec_ticks {op : Op} (hjin : op ≠ .jin) (hjms : op ≠ .jms) (hbbl : op ≠ .bbl)
    (hdcl : op ≠ .dcl) : Keeps Ticks (exec h op) := by
  cases op with
  | jin => exact absurd rfl hjin
  | jms => exact absurd rfl hjms
  | bbl => exact absurd rfl hbbl
  | dcl => exact absurd rfl hdcl
  | jcn => exact ticks_opJcn
  | fim => exact ticks_opFim
  | src => exact ticks_opSrc
  | fin => exact ticks_opFin
  | jun => exact ticks_opJun
  | inc => exact ticks_opInc
  | isz => exact ticks_opIsz
  | add => exact ticks_opAdd
  | sub => exact ticks_opSub
  | ld => exact ticks_opLd
  | xch => exact ticks_opXch
  | ldm => exact ticks_opLdm
  | wrm => exact ticks_opWrm
  | wmp => exact ticks_opWmp
  | wrr => exact ticks_opWrr
  | wr => exact ticks_opWr
  | sbm => exact ticks_opSbm
  | rdm => exact ticks_opRdm
  | rdr => exact ticks_opRdr
  | adm => exact ticks_opAdm
  | rd => exact ticks_opRd
  | nop | inv => exact ticks_incPc
  | clb => exact (ticks_accumulator _ _ : Keeps Ticks (opClb h))
  | clc => exact (ticks_accumulator _ _ : Keeps Ticks (opClc h))
  | iac => exact (ticks_accumulator _ _ : Keeps Ticks (opIac h))
  | cmc => exact (ticks_accumulator _ _ : Keeps Ticks (opCmc h))
  | cma => exact (ticks_accumulator _ _ : Keeps Ticks (opCma h))
  | ral => exact (ticks_accumulator _ _ : Keeps Ticks (opRal h))
  | rar => exact (ticks_accumulator _ _ : Keeps Ticks (opRar h))
  | tcc => exact (ticks_accumulator _ _ : Keeps Ticks (opTcc h))
  | dac => exact (ticks_accumulator _ _ : Keeps Ticks (opDac h))
  | tcs => exact (ticks_accumulator _ _ : Keeps Ticks (opTcs h))
  | stc => exact (ticks_accumulator _ _ : Keeps Ticks (opStc h))
  | daa => exact (ticks_accumulator _ _ : Keeps Ticks (opDaa h))
  | kbp => exact (ticks_accumulator _ _ : Keeps Ticks (opKbp h))

/-! ## The other four -/

/-- The handler of the next instruction. -/
def op (s : Mcs4) : Op := decode (instruction s)

theorem step_eq (s : Mcs4) : step h s = exec h (op s) s := by
  rw [step, bind_apply, fetch_eq]
  rfl

theorem fetchTmp_eq (s : Mcs4) : fetchTmp h s =
    some ((instruction s).setWidth 4, { s with tmp := (instruction s).setWidth 4 }) := by
  rw [fetchTmp, bind_apply, fetch_eq]
  rfl

theorem opDcl_eq (s : Mcs4) :
    opDcl h s = some ((), incremented { s with cmram := commandLine s.a }) := by
  rw [opDcl, bind_apply]
  exact incPc_eq _

theorem commandLine_ne (a : BitVec 4) (h2 : a &&& 7 ≠ 2) (h3 : a &&& 7 ≠ 3) :
    commandLine a ≠ 4 ∧ commandLine a ≠ 3 := by
  revert a
  decide

/-- What `_mcs4_get_r` reads. -/
def nibble (s : Mcs4) (idx : Nat) : Byte :=
  if idx &&& 1 ≠ 0 then s.mem (2376 + idx >>> 1) >>> 4 else s.mem (2376 + idx >>> 1) &&& 0x0F

/-- What `_mcs4_get_reg_pair` reads. -/
def regPair (s : Mcs4) (pair : Nat) : Byte :=
  nibble s (2 * pair) <<< 4 ||| nibble s (2 * pair + 1)

theorem getR_eq {idx : Nat} (hidx : idx < 16) (s : Mcs4) :
    getR h idx s = some (nibble s idx, s) := by
  have hin : InArrays (Access.addr ⟨.r, [idx >>> 1]⟩) := by
    rw [r_addr]
    exact .inl (Nat.add_lt_add_left (half_lt hidx) 2376)
  rw [getR, bind_apply, load_eq (inBounds_single (half_lt hidx)) hin, r_addr]
  rfl

theorem getRegPair_eq {pair : Nat} (hpair : pair < 8) (s : Mcs4) :
    getRegPair h pair s = some (regPair s pair, s) := by
  rw [getRegPair, bind_apply, getR_eq (by omega)]
  dsimp only [Option.bind_some]
  rw [bind_apply, getR_eq (by omega)]
  rfl

/-- The pair `JIN` reads. -/
def jinPair (s : Mcs4) : Nat := ((slot s 0).toNat &&& 0xF) >>> 1

/-- The address `JIN` jumps to. -/
def jinTarget (s : Mcs4) : BitVec 16 := slot s 0 &&& 0xF00 ||| (regPair s (jinPair s)).setWidth 16

theorem jinPair_lt (s : Mcs4) : jinPair s < 8 :=
  half_lt (Nat.lt_succ_of_le Nat.and_le_right)

theorem opJin_eq (s : Mcs4) : opJin h s = some ((), setSlot s 0 (jinTarget s)) := by
  rw [opJin, bind_apply, getPc_eq (by decide)]
  dsimp only [Option.bind_some]
  rw [bind_apply]
  have hpair := getRegPair_eq (h := h) (jinPair_lt s) s
  unfold jinPair at hpair
  rw [hpair]
  exact setPc_eq (show 0 < 4 by decide) _ s

/-- What the loop of `JMS` leaves. -/
def pushed : Nat → Mcs4 → Mcs4
  | 0, s => s
  | i + 1, s => pushed i (setSlot s (i + 1) (slot s i))

theorem pushLoop_eq : ∀ {n : Nat}, n < 4 → ∀ s : Mcs4, pushLoop h n s = some ((), pushed n s)
  | 0, _, _ => rfl
  | n + 1, hn, s => by
    rw [pushLoop, bind_apply, getPc_eq (by omega)]
    dsimp only [Option.bind_some]
    rw [bind_apply, setPc_eq hn]
    exact pushLoop_eq (Nat.lt_of_succ_lt hn) _

theorem onlyMem_setSlot (s : Mcs4) (idx : Nat) (val : BitVec 16) : OnlyMem s (setSlot s idx val) := by
  unfold setSlot
  dsimp only
  split_ifs <;> rfl

theorem onlyMem_pushed : ∀ (n : Nat) (s : Mcs4), OnlyMem s (pushed n s)
  | 0, _ => rfl
  | n + 1, s => IsTrans.trans _ _ _ (onlyMem_setSlot s _ _) (onlyMem_pushed n _)

theorem slot_pushed (k : Nat) : ∀ (n : Nat) (s : Mcs4),
    slot (pushed n s) k = if 0 < k ∧ k ≤ n then slot s (k - 1) else slot s k
  | 0, s => by rw [if_neg (by omega)]; rfl
  | n + 1, s => by
    rw [pushed, slot_pushed k n]
    by_cases hk : k = n + 1
    · rw [if_neg (by omega), if_pos (by omega), hk, slot_setSlot_self, slot_mask,
        Nat.add_sub_cancel]
    · split_ifs
      · exact slot_setSlot_ne (by omega) s _
      · omega
      · omega
      · exact slot_setSlot_ne hk s _

/-- What the loop of `BBL` leaves. -/
def popped : Nat → Nat → Mcs4 → Mcs4
  | _, 0, s => s
  | i, n + 1, s => popped (i + 1) n (setSlot s i (slot s (i + 1)))

theorem popLoop_eq : ∀ {n i : Nat}, i + n < 4 → ∀ s : Mcs4,
    popLoop h i n s = some ((), popped i n s)
  | 0, _, _, _ => rfl
  | n + 1, i, hn, s => by
    rw [popLoop, bind_apply, getPc_eq (by omega)]
    dsimp only [Option.bind_some]
    rw [bind_apply, setPc_eq (by omega)]
    exact popLoop_eq (by omega) _

theorem onlyMem_popped : ∀ (n i : Nat) (s : Mcs4), OnlyMem s (popped i n s)
  | 0, _, _ => rfl
  | n + 1, _, s => IsTrans.trans _ _ _ (onlyMem_setSlot s _ _) (onlyMem_popped n _ _)

theorem slot_popped (k : Nat) : ∀ (n i : Nat) (s : Mcs4),
    slot (popped i n s) k = if i ≤ k ∧ k < i + n then slot s (k + 1) else slot s k
  | 0, i, s => by rw [if_neg (by omega)]; rfl
  | n + 1, i, s => by
    rw [popped, slot_popped k n (i + 1)]
    by_cases hk : k = i
    · rw [if_neg (by omega), if_pos (by omega), hk, slot_setSlot_self, slot_mask]
    · split_ifs
      · exact slot_setSlot_ne (by omega) s _
      · omega
      · omega
      · exact slot_setSlot_ne hk s _

theorem nextPc_mask (pc : BitVec 16) : nextPc pc &&& 0xFFF = nextPc pc := by
  unfold nextPc
  generalize pc + 1 = pc'
  ext i hi
  interval_cases i <;> simp

theorem slot_incremented_zero (s : Mcs4) : slot (incremented s) 0 = nextPc (slot s 0) := by
  rw [← nextPc_mask]
  exact slot_setSlot_self s 0 _

theorem slot_incremented_succ (s : Mcs4) (k : Nat) : slot (incremented s) (k + 1) = slot s (k + 1) :=
  slot_setSlot_ne (Nat.succ_ne_zero k) s _

theorem setSlot_prom {n : Nat} (hn : n < 2389) (s : Mcs4) (idx : Nat) (val : BitVec 16) :
    (setSlot s idx val).mem n = s.mem n := setSlot_mem s idx val (.inl (by omega))

theorem incremented_prom {n : Nat} (hn : n < 2389) (s : Mcs4) :
    (incremented s).mem n = s.mem n := setSlot_prom hn s 0 _

/-- Everything but the memory and the cycles stays. -/
theorem incremented_eq (s : Mcs4) :
    incremented s = { s with mem := (incremented s).mem, cycles := s.cycles + 1 } := by
  unfold incremented
  rw [onlyMem_setSlot s 0 (nextPc (slot s 0))]

/-- `JMS` before its loop. -/
def beforePush (s : Mcs4) : Mcs4 :=
  { incremented (incremented { s with tmp := (instruction s).setWidth 4 }) with
    sp := (s.sp + 1) &&& 0x3 }

/-- The address `JMS` jumps to. -/
def jmsTarget (s : Mcs4) : BitVec 16 :=
  ((instruction s).setWidth 4).setWidth 16 <<< 8 ||| (instruction (incremented s)).setWidth 16

theorem opJms_eq (s : Mcs4) : opJms h s = some ((),
    setSlot (pushed ((s.sp + 1) &&& 0x3).toNat (beforePush s)) 0 (jmsTarget s)) := by
  have hsp : ((s.sp + 1) &&& 0x3).toNat < 4 := by
    rw [BitVec.toNat_and]
    exact Nat.lt_succ_of_le Nat.and_le_right
  unfold opJms
  rw [bind_apply, fetchTmp_eq]
  dsimp only [Option.bind_some]
  rw [bind_apply, incPc_eq]
  dsimp only [Option.bind_some]
  rw [bind_apply, fetch_eq]
  dsimp only [Option.bind_some]
  rw [bind_apply, incPc_eq]
  change ((pushLoop h ((s.sp + 1) &&& 0x3).toNat >>= fun _ => setPc h 0 _) (beforePush s)) = _
  rw [bind_apply, pushLoop_eq hsp]
  exact setPc_eq (show 0 < 4 by decide) _ _

/-- `BBL` before its loop. -/
def beforePop (s : Mcs4) : Mcs4 := { s with tmp := (instruction s).setWidth 4 }

theorem opBbl_eq {s : Mcs4} (hpos : 0 < s.sp.toNat) (hsp : s.sp.toNat < 4) : opBbl h s = some ((),
    { setSlot (popped 0 s.sp.toNat (beforePop s)) s.sp.toNat 0 with
      sp := s.sp - 1, a := (instruction s).setWidth 4 }) := by
  have hmem := IsTrans.trans _ _ _ (onlyMem_popped s.sp.toNat 0 (beforePop s))
    (onlyMem_setSlot (popped 0 s.sp.toNat (beforePop s)) s.sp.toNat 0)
  unfold opBbl
  rw [bind_apply, fetchTmp_eq]
  dsimp only [Option.bind_some]
  change (if s.sp > 0 then (popLoop h 0 s.sp.toNat >>= fun _ => setPc h s.sp.toNat 0 >>= fun _ =>
    modify fun s' => { s' with sp := s'.sp - 1, a := (instruction s).setWidth 4 })
      else incPc h) (beforePop s) = _
  rw [if_pos (show s.sp > 0 from BitVec.lt_def.mpr hpos), bind_apply, popLoop_eq (by omega)]
  dsimp only [Option.bind_some]
  rw [bind_apply, setPc_eq hsp]
  dsimp only [Option.bind_some]
  have hsp' : (setSlot (popped 0 s.sp.toNat (beforePop s)) s.sp.toNat 0).sp = s.sp := by
    rw [hmem]
    rfl
  change some ((), { setSlot (popped 0 s.sp.toNat (beforePop s)) s.sp.toNat 0 with
    sp := (setSlot (popped 0 s.sp.toNat (beforePop s)) s.sp.toNat 0).sp - 1
    a := (instruction s).setWidth 4 }) = _
  rw [hsp']

theorem opBbl_empty {s : Mcs4} (hsp : s.sp = 0) :
    opBbl h s = some ((), incremented (beforePop s)) := by
  unfold opBbl
  rw [bind_apply, fetchTmp_eq]
  change (if s.sp > 0 then (popLoop h 0 s.sp.toNat >>= fun _ => setPc h s.sp.toNat 0 >>= fun _ =>
    modify fun s' => { s' with sp := s'.sp - 1, a := (instruction s).setWidth 4 })
      else incPc h) (beforePop s) = _
  rw [if_neg (by rw [hsp]; decide)]
  exact incPc_eq _

end Quals2017.Faggin
