import Quals2017.Faggin.Handlers

/-!
# Indices in bounds (`faggin/mcs4.c:33-114`, `708-870`, `faggin/mcs4.h:31-50`)

* `step_defined`: a step is defined exactly where its accesses are (`Fits`), on any host.
* `reached_bounded`: `ms` keeps 8 bits and `sp` 2.
* **`inBounds_iff_safe`**: along a run every index is in bounds exactly when RAM is not accessed
  after a `DCL` of the third or fourth bank, nor a ROM port from the upper half of the address
  space.
-/

namespace Quals2017.Faggin

open Quals2017.Lib

variable {h : Host} {α β : Type}

/-! ## Where a step is defined -/

/-- A load is defined. -/
def Loads (h : Host) (x : Access) : Prop := h.checked = true → x.InBounds

/-- A store is defined. -/
def Stores (h : Host) (x : Access) : Prop := Loads h x ∧ InArrays x.addr

theorem load_defined (x : Access) (s : Mcs4) : Defined (load h x) s ↔ Loads h x := by
  unfold Loads load
  constructor
  · rintro ⟨p, hp⟩ hc
    by_contra hx
    dsimp only at hp
    rw [if_pos ⟨hc, hx⟩] at hp
    cases hp
  · intro hx
    rw [Defined, if_neg fun hn => hn.2 (hx hn.1)]
    exact ⟨_, rfl⟩

theorem store_defined (x : Access) (b : Byte) (s : Mcs4) :
    Defined (store h x b) s ↔ Stores h x := by
  unfold Stores Loads store
  constructor
  · rintro ⟨p, hp⟩
    split_ifs at hp with hn hin
    exact ⟨fun hc => by_contra fun hx => hn ⟨hc, hx⟩, hin⟩
  · rintro ⟨hx, hin⟩
    rw [Defined, if_neg fun hn => hn.2 (hx hn.1), if_pos hin]
    exact ⟨_, rfl⟩

theorem always_load {x : Access} (hx : Loads h x) : Always (load h x) :=
  always_of_defined fun s => (load_defined x s).mpr hx

theorem always_store {x : Access} (hx : Stores h x) (b : Byte) : Always (store h x b) :=
  always_of_defined fun s => (store_defined x b s).mpr hx

theorem always_update {x : Access} (hx : Stores h x) (f : Byte → Byte) : Always (update h x f) :=
  total_bind (always_load hx.1) fun _ => always_store hx _

theorem update_defined (x : Access) (f : Byte → Byte) (s : Mcs4) :
    Defined (update h x f) s ↔ Stores h x := by
  refine ⟨fun ⟨p, hp⟩ => ?_, fun hx => (always_update hx f).defined s⟩
  obtain ⟨b, s', -, hb⟩ := bind_eq_some hp
  exact (store_defined x (f b) s').mp ⟨p, hb⟩

/-- Two updates of one element. -/
theorem updates_defined (x : Access) (f g : Byte → Byte) (s : Mcs4) :
    Defined (update h x f >>= fun _ => update h x g) s ↔ Stores h x := by
  refine ⟨fun ⟨p, hp⟩ => ?_, fun hx => ?_⟩
  · obtain ⟨b, s', hb, -⟩ := bind_eq_some hp
    exact (update_defined x f s).mp ⟨(b, s'), hb⟩
  · exact Always.defined (total_bind (always_update hx f) fun _ => always_update hx g) s

theorem always_eq {m : M α} {f : Mcs4 → α × Mcs4} (hm : ∀ s, m s = some (f s)) : Always m :=
  always_of_defined fun s => ⟨f s, hm s⟩

theorem always_modify (f : Mcs4 → Mcs4) : Always (modify f : M PUnit) :=
  total_modify fun _ hs => hs

theorem always_get {f : Mcs4 → M α} (hf : ∀ s, Always (f s)) : Always (get >>= f) :=
  total_get_bind fun s _ => hf s

theorem always_ite {c : Prop} [Decidable c] {m n : M α} (hm : Always m) (hn : Always n) :
    Always (if c then m else n) := total_ite (fun _ => hm) fun _ => hn

theorem always_getPc : Always (getPc h 0) := always_eq (getPc_eq (by decide))

theorem always_setPc (val : BitVec 16) : Always (setPc h 0 val) :=
  always_eq (setPc_eq (show 0 < 4 by decide) val)

theorem always_incPc : Always (incPc h) := always_eq incPc_eq

theorem always_fetch : Always (fetch h) := always_eq fetch_eq

theorem always_fetchTmp : Always (fetchTmp h) := always_eq fetchTmp_eq

theorem stores_r {idx : Nat} (hidx : idx < 16) : Stores h ⟨.r, [idx >>> 1]⟩ := by
  refine ⟨fun _ => inBounds_single (half_lt hidx), ?_⟩
  rw [r_addr]
  exact .inl (Nat.add_lt_add_left (half_lt hidx) 2376)

theorem always_getR {idx : Nat} (hidx : idx < 16) : Always (getR h idx) := always_eq (getR_eq hidx)

theorem always_setR {idx : Nat} (hidx : idx < 16) (val : Byte) : Always (setR h idx val) :=
  always_update (stores_r hidx) _

theorem always_getRegPair {pair : Nat} (hpair : pair < 8) : Always (getRegPair h pair) :=
  always_eq (getRegPair_eq hpair)

theorem always_setRegPair {pair : Nat} (hpair : pair < 8) (data : Byte) :
    Always (setRegPair h pair data) :=
  total_bind (always_setR (by omega) _) fun _ => always_setR (by omega) _

theorem always_opJcn : Always (opJcn h) :=
  total_bind always_getPc fun _ => total_bind always_fetchTmp fun _ =>
    total_bind always_incPc fun _ => always_get fun _ => always_ite
      (total_bind always_fetch fun _ => always_setPc _) always_incPc

theorem always_opFim : Always (opFim h) :=
  total_bind always_fetch fun b => total_bind (always_modify _) fun _ =>
    total_bind always_incPc fun _ => total_bind always_fetch fun _ =>
      total_bind (always_setRegPair (pairOf_lt b) _) fun _ => always_incPc

theorem always_opSrc : Always (opSrc h) :=
  total_bind always_fetch fun b => total_bind (always_getRegPair (pairOf_lt b)) fun _ =>
    total_bind (always_modify _) fun _ => always_incPc

theorem always_opFin : Always (opFin h) :=
  total_bind always_fetch fun b => total_bind (always_modify _) fun _ =>
    total_bind always_fetch fun _ => total_bind (always_getRegPair (pairOf_lt b)) fun _ =>
      total_bind (always_setRegPair (pairOf_lt b) _) fun _ => always_incPc

theorem always_opJun : Always (opJun h) :=
  total_bind always_getPc fun _ => total_bind (always_modify _) fun _ =>
    total_bind always_incPc fun _ => total_bind always_getPc fun _ => always_setPc _

theorem always_opInc : Always (opInc h) :=
  total_bind always_fetchTmp fun tmp => total_bind (always_getR (nibble_lt tmp)) fun _ =>
    total_bind (always_setR (nibble_lt tmp) _) fun _ => always_incPc

theorem always_opIsz : Always (opIsz h) :=
  total_bind always_fetchTmp fun tmp => total_bind always_incPc fun _ =>
    total_bind (always_getR (nibble_lt tmp)) fun _ =>
      total_bind (always_setR (nibble_lt tmp) _) fun _ =>
        total_bind (always_getR (nibble_lt tmp)) fun _ => always_ite
          (total_bind always_getPc fun _ => total_bind always_fetch fun _ => always_setPc _)
          always_incPc

/-- A register read into the accumulator. -/
theorem always_fromR (f : Byte → Mcs4 → Mcs4) : Always (do
    let tmp ← fetchTmp h
    let val ← getR h tmp.toNat
    modify (f val)
    incPc h) :=
  total_bind always_fetchTmp fun tmp => total_bind (always_getR (nibble_lt tmp)) fun _ =>
    total_bind (always_modify _) fun _ => always_incPc

theorem always_opXch : Always (opXch h) :=
  total_bind always_fetch fun b => always_get fun _ =>
    total_bind (always_getR (nibble_lt (b.setWidth 4))) fun _ =>
      total_bind (always_modify _) fun _ =>
        total_bind (always_setR (nibble_lt (b.setWidth 4)) _) fun _ => always_incPc

theorem always_opLdm : Always (opLdm h) :=
  total_bind always_fetchTmp fun _ => total_bind (always_modify _) fun _ => always_incPc

theorem always_accumulator (f : BitVec 4 → BitVec 1 → BitVec 4 × BitVec 1)
    (tmp : BitVec 4 → BitVec 4 → BitVec 4) : Always (accumulator h f tmp) :=
  total_bind (always_modify _) fun _ => always_incPc

/-- No fifth register. -/
theorem setPc_undefined {idx : Nat} (hidx : 4 ≤ idx) (val : BitVec 16) (s : Mcs4) :
    ¬Defined (setPc h idx val) s := by
  have hout : ∀ i, ¬Stores h ⟨.pc, [(idx >>> 1) * 3 + i]⟩ := by
    intro i hst
    have hin := hst.2
    rw [pc_addr, InArrays, Nat.shiftRight_eq_div_pow] at hin
    omega
  rintro ⟨p, hp⟩
  unfold setPc at hp
  dsimp only at hp
  split_ifs at hp
  · obtain ⟨u, t, hu, -⟩ := bind_eq_some hp
    exact hout 1 ((update_defined _ _ s).mp ⟨(u, t), hu⟩)
  · obtain ⟨u, t, hu, -⟩ := bind_eq_some hp
    exact hout 0 ((store_defined _ _ s).mp ⟨(u, t), hu⟩)

/-- `sp` is at most 3 in every machine that started empty. Otherwise the last store is outside. -/
theorem opBbl_defined (s : Mcs4) : Defined (opBbl h) s ↔ s.sp.toNat < 4 := by
  constructor
  · rintro ⟨p, hp⟩
    by_contra hge
    have hsp : s.sp > 0 := BitVec.lt_def.mpr (show 0 < s.sp.toNat by omega)
    obtain ⟨tmp, t, ht, hp⟩ := bind_eq_some hp
    rw [fetchTmp_eq] at ht
    cases ht
    change (if s.sp > 0 then (popLoop h 0 s.sp.toNat >>= fun _ => setPc h s.sp.toNat 0 >>= fun _ =>
      modify fun s' => { s' with sp := s'.sp - 1, a := (instruction s).setWidth 4 })
        else incPc h) (beforePop s) = _ at hp
    rw [if_pos hsp] at hp
    obtain ⟨-, t, -, hp⟩ := bind_eq_some hp
    obtain ⟨u, t', hset, -⟩ := bind_eq_some hp
    exact setPc_undefined (Nat.le_of_not_lt hge) 0 t ⟨(u, t'), hset⟩
  · intro hlt
    rcases Nat.eq_zero_or_pos s.sp.toNat with hzero | hpos
    · exact ⟨_, opBbl_empty (BitVec.eq_of_toNat_eq hzero)⟩
    · exact ⟨_, opBbl_eq hpos hlt⟩

/-! The handlers of RAM and the ports are defined where their accesses are. -/

/-- The characters `_mcs4_set_ram` writes. -/
theorem setRam_defined (idx : Nat) (val : Byte) (s : Mcs4) : Defined (setRam h idx val) s ↔
    (s.cmram ∈ ([1, 2, 4, 3] : List (BitVec 4)) → Stores h (ramByte s idx)) := by
  change Defined (if s.cmram ∈ ([1, 2, 4, 3] : List (BitVec 4)) then
    if idx &&& 1 ≠ 0 then update h (ramByte s idx) (· &&& 0x0F) >>= fun _ =>
      update h (ramByte s idx) (· ||| val <<< 4)
    else update h (ramByte s idx) (· &&& 0xF0) >>= fun _ => update h (ramByte s idx) (· ||| val)
    else pure ()) s ↔ _
  by_cases hbank : s.cmram ∈ ([1, 2, 4, 3] : List (BitVec 4))
  · rw [if_pos hbank, forall_prop_of_true hbank]
    split_ifs
    · exact updates_defined _ _ _ s
    · exact updates_defined _ _ _ s
  · rw [if_neg hbank, forall_prop_of_false hbank]
    exact ⟨fun _ => trivial, fun _ => ⟨_, rfl⟩⟩

theorem getRam_defined (idx : Nat) (s : Mcs4) :
    Defined (getRam h idx) s ↔ Loads h (ramByte s idx) := by
  change Defined (load h (ramByte s idx) >>= fun b =>
    pure (if idx &&& 1 ≠ 0 then b >>> 4 else b &&& 0xF)) s ↔ _
  rw [defined_bind fun _ => total_pure _]
  exact load_defined _ s

theorem setRamout_defined (s : Mcs4) : Defined (setRamout h) s ↔
    ∀ bank ∈ portBank s.cmram, Stores h ⟨.ramout, [bank ||| s.ms.toNat >>> 7]⟩ := by
  unfold Defined
  rw [setRamout_eq]
  cases portBank s.cmram with
  | none => exact ⟨fun _ bank hbank => absurd hbank (Option.not_mem_none bank), fun _ => ⟨_, rfl⟩⟩
  | some bank =>
    refine (store_defined _ _ s).trans ⟨fun hst bank' hbank => ?_, fun hst => hst bank rfl⟩
    cases hbank
    exact hst

theorem setPromio_defined (tmp a : BitVec 4) (s : Mcs4) :
    Defined (setPromio h tmp a) s ↔ Stores h ⟨.promio, [tmp.toNat / 2]⟩ := by
  unfold setPromio
  split_ifs
  · exact updates_defined _ _ _ s
  · exact updates_defined _ _ _ s

/-- The ROM port of the page. -/
def romPort (s : Mcs4) : Access := ⟨.promio, [((slot s 0 >>> 8).setWidth 4).toNat / 2]⟩

/-- The number of a status character. -/
def status (s : Mcs4) : Nat := ((instruction s).setWidth 4 &&& (0x3 : BitVec 4)).toNat

theorem romTmp_eq (s : Mcs4) : romTmp h s = some ((slot s 0 >>> 8).setWidth 4,
    { s with tmp := (slot s 0 >>> 8).setWidth 4 }) := by
  rw [romTmp, bind_apply, getPc_eq (by decide)]
  rfl

theorem statusTmp_eq (s : Mcs4) : statusTmp h s = some (status s,
    { s with tmp := (instruction s).setWidth 4 &&& 0x3 }) := by
  rw [statusTmp, bind_apply, fetch_eq]
  rfl

/-- The accesses of the next instruction are defined, but for those that always are. -/
def Fits (h : Host) (s : Mcs4) : Prop :=
  match op s with
  | .wrm => s.cmram ∈ ([1, 2, 4, 3] : List (BitVec 4)) → Stores h (ramByte s (mainChar s))
  | .wr => s.cmram ∈ ([1, 2, 4, 3] : List (BitVec 4)) → Stores h (ramByte s (0xF + status s))
  | .wmp => ∀ bank ∈ portBank s.cmram, Stores h ⟨.ramout, [bank ||| s.ms.toNat >>> 7]⟩
  | .sbm | .rdm | .adm => Loads h (ramByte s (mainChar s))
  | .rd => Loads h (ramByte s (0xF + status s))
  | .wrr => Stores h (romPort s)
  | .rdr => Loads h (romPort s)
  | .bbl => s.sp.toNat < 4
  | _ => True

/-- A character of RAM read into the accumulator. -/
theorem fromRam_defined (idx : Mcs4 → Nat) (f : Byte → Mcs4 → Mcs4) (s : Mcs4) :
    Defined (do
      let s ← get
      let val ← getRam h (idx s)
      modify (f val)
      incPc h) s ↔ Loads h (ramByte s (idx s)) := by
  refine Iff.trans ?_ (getRam_defined (idx s) s)
  exact defined_bind (fun val => total_bind (always_modify (f val)) fun _ => always_incPc) s

theorem opWrr_defined (s : Mcs4) : Defined (opWrr h) s ↔ Stores h (romPort s) := by
  rw [opWrr, defined_bind_eq (romTmp_eq s), defined_get_bind, defined_bind fun _ => always_incPc,
    setPromio_defined]
  rfl

theorem opRdr_defined (s : Mcs4) : Defined (opRdr h) s ↔ Loads h (romPort s) := by
  rw [opRdr, defined_bind_eq (romTmp_eq s),
    defined_bind fun _ => total_bind (always_modify _) fun _ => always_incPc, load_defined]
  rfl

theorem opWr_defined (s : Mcs4) : Defined (opWr h) s ↔
    (s.cmram ∈ ([1, 2, 4, 3] : List (BitVec 4)) → Stores h (ramByte s (0xF + status s))) := by
  rw [opWr, defined_bind_eq (statusTmp_eq s), defined_get_bind, defined_bind fun _ => always_incPc,
    setRam_defined]
  rfl

theorem opRd_defined (s : Mcs4) : Defined (opRd h) s ↔ Loads h (ramByte s (0xF + status s)) := by
  rw [opRd, defined_bind_eq (statusTmp_eq s),
    defined_bind fun _ => total_bind (always_modify _) fun _ => always_incPc, getRam_defined]
  rfl

/-- `SBM` and `ADM` put the accumulator into `tmp` first. -/
theorem saved_defined (f : Byte → Mcs4 → Mcs4) (s : Mcs4) :
    Defined (do
      modify fun s => { s with tmp := s.a }
      let s ← get
      let val ← getRam h (mainChar s)
      modify (f val)
      incPc h) s ↔ Loads h (ramByte s (mainChar s)) := by
  have hset : (modify fun s => { s with tmp := s.a } : M PUnit) s = some (⟨⟩, { s with tmp := s.a }) :=
    rfl
  exact (defined_bind_eq hset).trans (fromRam_defined mainChar f _)

/-- **Where a step is defined.** -/
theorem step_defined (s : Mcs4) : Defined (step h) s ↔ Fits h s := by
  have hinc : ∀ _ : Unit, Always (incPc h) := fun _ => always_incPc
  have htrue : ∀ {m : M Unit}, Always m → (Defined m s ↔ True) :=
    fun hm => iff_true_intro (hm.defined s)
  have hiff : ∀ o, op s = o → (Defined (exec h o) s ↔ Fits h s) := by
    intro o ho
    unfold Fits
    rw [ho]
    cases o with
    | wrm => exact (defined_bind hinc s).trans (setRam_defined _ _ s)
    | wmp => exact (defined_bind hinc s).trans (setRamout_defined s)
    | wrr => exact opWrr_defined s
    | wr => exact opWr_defined s
    | sbm => exact saved_defined _ s
    | rdm => exact fromRam_defined mainChar _ s
    | rdr => exact opRdr_defined s
    | adm => exact saved_defined _ s
    | rd => exact opRd_defined s
    | bbl => exact opBbl_defined s
    | jcn => exact htrue always_opJcn
    | fim => exact htrue always_opFim
    | src => exact htrue always_opSrc
    | fin => exact htrue always_opFin
    | jin => exact htrue (always_eq opJin_eq)
    | jun => exact htrue always_opJun
    | jms => exact htrue (always_eq opJms_eq)
    | inc => exact htrue always_opInc
    | isz => exact htrue always_opIsz
    | add | sub | ld => exact htrue (always_fromR _)
    | xch => exact htrue always_opXch
    | ldm => exact htrue always_opLdm
    | dcl => exact htrue (always_eq opDcl_eq)
    | nop | inv => exact htrue always_incPc
    | clb => exact htrue (always_accumulator _ _ : Always (opClb h))
    | clc => exact htrue (always_accumulator _ _ : Always (opClc h))
    | iac => exact htrue (always_accumulator _ _ : Always (opIac h))
    | cmc => exact htrue (always_accumulator _ _ : Always (opCmc h))
    | cma => exact htrue (always_accumulator _ _ : Always (opCma h))
    | ral => exact htrue (always_accumulator _ _ : Always (opRal h))
    | rar => exact htrue (always_accumulator _ _ : Always (opRar h))
    | tcc => exact htrue (always_accumulator _ _ : Always (opTcc h))
    | dac => exact htrue (always_accumulator _ _ : Always (opDac h))
    | tcs => exact htrue (always_accumulator _ _ : Always (opTcs h))
    | stc => exact htrue (always_accumulator _ _ : Always (opStc h))
    | daa => exact htrue (always_accumulator _ _ : Always (opDaa h))
    | kbp => exact htrue (always_accumulator _ _ : Always (opKbp h))
  rw [Defined, step_eq]
  exact hiff (op s) rfl

/-! ## Runs -/

theorem mainLoop_step {s s' : Mcs4} (hc : s.cycles < maxCycles) (hs : step h s = some ((), s'))
    (n : Nat) : mainLoop h (n + 1) s = mainLoop h n s' := by
  rw [mainLoop, if_pos hc, hs]
  rfl

/-- A state in which the main loop takes a step. -/
def Reached (h : Host) (prom : Nat → Byte) (s : Mcs4) : Prop :=
  ∃ n, mainLoop h n (init prom) = some s ∧ s.cycles < maxCycles

/-- `ms` has the 8 bits of a register pair and `sp` counts three calls. -/
structure Bounded (s : Mcs4) : Prop where
  ms : s.ms.toNat < 256
  sp : s.sp.toNat < 4

theorem step_bounded {s s' : Mcs4} (hb : Bounded s) (hs : step h s = some ((), s')) :
    Bounded s' := by
  rw [step_eq] at hs
  by_cases hjms : op s = .jms
  · rw [hjms, exec, opJms_eq] at hs
    cases hs
    have hmem := IsTrans.trans _ _ _ (onlyMem_pushed ((s.sp + 1) &&& 0x3).toNat (beforePush s))
      (onlyMem_setSlot (pushed ((s.sp + 1) &&& 0x3).toNat (beforePush s)) 0 (jmsTarget s))
    rw [hmem]
    refine ⟨hb.ms, ?_⟩
    change ((s.sp + 1) &&& 0x3).toNat < 4
    rw [BitVec.toNat_and]
    exact Nat.lt_succ_of_le Nat.and_le_right
  by_cases hbbl : op s = .bbl
  · rw [hbbl, exec] at hs
    rcases Nat.eq_zero_or_pos s.sp.toNat with hzero | hpos
    · rw [opBbl_empty (BitVec.eq_of_toNat_eq hzero)] at hs
      cases hs
      exact ⟨hb.ms, hb.sp⟩
    · rw [opBbl_eq hpos hb.sp] at hs
      cases hs
      have hmem := IsTrans.trans _ _ _ (onlyMem_popped s.sp.toNat 0 (beforePop s))
        (onlyMem_setSlot (popped 0 s.sp.toNat (beforePop s)) s.sp.toNat 0)
      have hle : (1 : BitVec 4) ≤ s.sp := BitVec.le_def.mpr (Nat.succ_le_of_lt hpos)
      rw [hmem]
      refine ⟨hb.ms, ?_⟩
      change (s.sp - 1).toNat < 4
      rw [BitVec.toNat_sub_of_le hle]
      exact Nat.lt_of_le_of_lt (Nat.sub_le _ _) hb.sp
  by_cases hdcl : op s = .dcl
  · rw [hdcl, exec, opDcl_eq] at hs
    cases hs
    exact ⟨hb.ms, hb.sp⟩
  by_cases hjin : op s = .jin
  · rw [hjin, exec, opJin_eq] at hs
    cases hs
    exact ⟨hb.ms, hb.sp⟩
  have hmoves := (exec_ticks hjin hjms hbbl hdcl s () s' hs).toMoves
  refine ⟨hmoves.ms hb.ms, ?_⟩
  rw [hmoves.sp]
  exact hb.sp

theorem mainLoop_bounded : ∀ (n : Nat) {s s' : Mcs4}, Bounded s → mainLoop h n s = some s' →
    Bounded s'
  | 0, s, s', hb, hs => by
    cases hs
    exact hb
  | n + 1, s, s', hb, hs => by
    unfold mainLoop at hs
    split_ifs at hs
    · obtain ⟨p, hp, hs⟩ := Option.bind_eq_some_iff.mp hs
      exact mainLoop_bounded n (step_bounded hb hp) hs
    · cases hs
      exact hb

theorem reached_bounded {prom : Nat → Byte} {s : Mcs4} (hs : Reached h prom s) : Bounded s := by
  obtain ⟨n, hn, -⟩ := hs
  exact mainLoop_bounded n ⟨show (0 : BitVec 16).toNat < 256 by decide,
    show (0 : BitVec 4).toNat < 4 by decide⟩ hn

/-- Every index of the next step is in bounds. -/
def StepInBounds (s : Mcs4) : Prop := Defined (step ⟨true, fun _ _ => 0⟩) s

/-- RAM and its ports are not accessed in the banks behind `ram`, the ports of ROM not from the
addresses behind `prom`. -/
def Safe (s : Mcs4) : Prop :=
  match op s with
  | .wrm | .wr | .wmp | .sbm | .rdm | .adm | .rd => s.cmram ≠ 4 ∧ s.cmram ≠ 3
  | .wrr | .rdr => (slot s 0).toNat < 2048
  | _ => True

section Checked

variable {behind : Mcs4 → Nat → Byte}

theorem loads_checked {x : Access} : Loads ⟨true, behind⟩ x ↔ x.InBounds := forall_prop_of_true rfl

theorem inBounds_single_iff {arr : Arr} {i d : Nat} (hd : arr.dims = [d]) :
    Access.InBounds ⟨arr, [i]⟩ ↔ i < d := by
  refine ⟨fun hin => ?_, fun hi => inBounds_single hi hd⟩
  have hzip := hin.2
  rw [hd] at hzip
  exact hzip (i, d) (List.mem_singleton.mpr rfl)

theorem ramByte_inBounds (s : Mcs4) {idx : Nat} (hidx : idx < 20) :
    (ramByte s idx).InBounds ↔ ramChip s < 8 := by
  have hreg := ramReg_lt s
  have hloc : idx >>> 1 < 10 := by
    rw [Nat.shiftRight_eq_div_pow]
    omega
  unfold Access.InBounds
  constructor
  · intro hin
    exact hin.2 (ramChip s, 8) (List.mem_cons_self ..)
  · refine fun hchip => ⟨rfl, ?_⟩
    change ∀ p ∈ [(ramChip s, 8), ((s.ms.toNat &&& 0x30) >>> 4, 4), (idx >>> 1, 10)], p.1 < p.2
    simp only [List.forall_mem_cons]
    exact ⟨hchip, hreg, hloc, fun _ hp => absurd hp List.not_mem_nil⟩

theorem inside_iff {s : Mcs4} (hms : s.ms.toNat < 256) :
    ramChip s < 8 ↔ s.cmram ≠ 4 ∧ s.cmram ≠ 3 := by
  refine ⟨fun hchip => ⟨fun h4 => ?_, fun h3 => ?_⟩, fun hne => ramChip_lt ⟨hms, hne.1, hne.2⟩⟩
  · have hle : 0x8 ≤ ramChip s := by
      rw [ramChip, h4]
      exact Nat.left_le_or
    omega
  · have hle : 0xC ≤ ramChip s := by
      rw [ramChip, h3]
      exact Nat.left_le_or
    omega

theorem loads_ramByte {s : Mcs4} (hms : s.ms.toNat < 256) {idx : Nat} (hidx : idx < 20) :
    Loads ⟨true, behind⟩ (ramByte s idx) ↔ s.cmram ≠ 4 ∧ s.cmram ≠ 3 := by
  rw [loads_checked, ramByte_inBounds s hidx, inside_iff hms]

/-- Nothing is stored in a bank without a line of its own. -/
theorem stores_ramByte {s : Mcs4} (hms : s.ms.toNat < 256) {idx : Nat} (hidx : idx < 20) :
    (s.cmram ∈ ([1, 2, 4, 3] : List (BitVec 4)) → Stores ⟨true, behind⟩ (ramByte s idx)) ↔
      s.cmram ≠ 4 ∧ s.cmram ≠ 3 := by
  have hload : Loads ⟨true, behind⟩ (ramByte s idx) ↔ _ := loads_ramByte hms hidx
  refine ⟨fun hst => ⟨fun h4 => ?_, fun h3 => ?_⟩, fun hne _ => ⟨hload.mpr hne, ?_⟩⟩
  · exact (hload.mp (hst (by rw [h4]; decide)).1).1 h4
  · exact (hload.mp (hst (by rw [h3]; decide)).1).2 h3
  · exact .inl (Nat.lt_trans (ramByte_lt ⟨hms, hne.1, hne.2⟩ hidx) (by decide))

theorem stores_single {arr : Arr} {i d : Nat} (hd : arr.dims = [d])
    (hin : i < d → InArrays (Access.addr ⟨arr, [i]⟩)) :
    Stores ⟨true, behind⟩ ⟨arr, [i]⟩ ↔ i < d := by
  rw [Stores, loads_checked, inBounds_single_iff hd]
  exact and_iff_left_of_imp hin

theorem stores_ramout {s : Mcs4} (hms : s.ms.toNat < 256) :
    (∀ bank ∈ portBank s.cmram, Stores ⟨true, behind⟩ ⟨.ramout, [bank ||| s.ms.toNat >>> 7]⟩) ↔
      s.cmram ≠ 4 ∧ s.cmram ≠ 3 := by
  have hport : s.ms.toNat >>> 7 < 2 := by
    rw [Nat.shiftRight_eq_div_pow]
    omega
  have hst : ∀ i, Stores ⟨true, behind⟩ ⟨.ramout, [i]⟩ ↔ i < 4 := fun i =>
    stores_single rfl fun hi => by
      rw [ramout_addr]
      exact .inl (by omega)
  simp only [hst]
  generalize s.cmram = cmram
  generalize s.ms.toNat >>> 7 = port at *
  interval_cases port <;> revert cmram <;> decide

theorem romPort_lt (s : Mcs4) :
    ((slot s 0 >>> 8).setWidth 4).toNat / 2 < 4 ↔ (slot s 0).toNat < 2048 := by
  have hslot := slot_lt s 0
  rw [BitVec.toNat_setWidth, BitVec.toNat_ushiftRight, Nat.shiftRight_eq_div_pow]
  omega

theorem loads_romPort (s : Mcs4) :
    Loads ⟨true, behind⟩ (romPort s) ↔ (slot s 0).toNat < 2048 := by
  rw [loads_checked, romPort, inBounds_single_iff rfl, romPort_lt]

theorem stores_romPort (s : Mcs4) :
    Stores ⟨true, behind⟩ (romPort s) ↔ (slot s 0).toNat < 2048 := by
  refine (stores_single rfl fun hi => ?_).trans (romPort_lt s)
  rw [promio_addr]
  exact .inl (by omega)

theorem status_lt (s : Mcs4) : 0xF + status s < 20 := by
  have hle : status s ≤ 3 := by
    rw [status, BitVec.toNat_and]
    exact Nat.and_le_right
  omega

theorem safe_iff_fits {s : Mcs4} (hb : Bounded s) : Fits ⟨true, behind⟩ s ↔ Safe s := by
  have hchar : mainChar s < 20 := Nat.lt_trans (mainChar_lt s) (by decide)
  unfold Fits Safe
  cases op s with
  | wrm => exact stores_ramByte hb.ms hchar
  | wr => exact stores_ramByte hb.ms (status_lt s)
  | wmp => exact stores_ramout hb.ms
  | sbm | rdm | adm => exact loads_ramByte hb.ms hchar
  | rd => exact loads_ramByte hb.ms (status_lt s)
  | wrr => exact stores_romPort s
  | rdr => exact loads_romPort s
  | bbl => exact iff_true_intro hb.sp
  | _ => exact Iff.rfl

end Checked

/-- **Where the indices are in bounds.** -/
theorem inBounds_iff_safe (h : Host) (prom : Nat → Byte) :
    (∀ s, Reached h prom s → StepInBounds s) ↔ ∀ s, Reached h prom s → Safe s := by
  refine forall₂_congr fun s hs => ?_
  rw [StepInBounds, step_defined]
  exact safe_iff_fits (reached_bounded hs)

/-- `LDM 2`, `DCL` and `RDM`. -/
def bankRom : Nat → Byte
  | 0 => 0xD2
  | 1 => 0xFD
  | 2 => 0xE9
  | _ => 0

theorem opLdm_eq (s : Mcs4) : opLdm h s = some ((), incremented
    { s with tmp := (instruction s).setWidth 4, a := (instruction s).setWidth 4 }) := by
  rw [opLdm, bind_apply, fetchTmp_eq]
  dsimp only [Option.bind_some]
  rw [bind_apply]
  exact incPc_eq _

/-- **`RDM` behind `ram`.** -/
theorem rdm_outOfBounds :
    ¬∀ s, Reached ⟨false, fun _ _ => 0⟩ bankRom s → StepInBounds s := by
  intro hall
  let s₁ := incremented { init bankRom with tmp := 2, a := 2 }
  let s₂ := incremented { s₁ with cmram := 4 }
  have hslot₀ : slot (init bankRom) 0 = 0 := rfl
  have hslot₁ : slot s₁ 0 = 1 := by
    change slot (incremented _) 0 = 1
    rw [slot_incremented_zero]
    rfl
  have hslot₂ : slot s₂ 0 = 2 := by
    change slot (incremented _) 0 = 2
    rw [slot_incremented_zero]
    change nextPc (slot s₁ 0) = 2
    rw [hslot₁]
    rfl
  have hprom₁ : ∀ n, n < 2048 → s₁.mem n = bankRom n := fun n hn => by
    change (incremented _).mem n = _
    rw [incremented_prom (by omega)]
    exact if_pos hn
  have hprom₂ : ∀ n, n < 2048 → s₂.mem n = bankRom n := fun n hn => by
    change (incremented _).mem n = _
    rw [incremented_prom (by omega)]
    exact hprom₁ n hn
  have hcode₀ : instruction (init bankRom) = 0xD2 := rfl
  have hcode₁ : instruction s₁ = 0xFD := by
    rw [instruction, hslot₁]
    exact hprom₁ 1 (by decide)
  have hcode₂ : instruction s₂ = 0xE9 := by
    rw [instruction, hslot₂]
    exact hprom₂ 2 (by decide)
  have hstep₁ : step ⟨false, fun _ _ => 0⟩ (init bankRom) = some ((), s₁) := by
    rw [step_eq, op, hcode₀]
    change opLdm _ _ = _
    rw [opLdm_eq, hcode₀]
    rfl
  have hstep₂ : step ⟨false, fun _ _ => 0⟩ s₁ = some ((), s₂) := by
    rw [step_eq, op, hcode₁]
    have hline : commandLine 2 = 4 := by decide
    change opDcl _ _ = _
    rw [opDcl_eq, show s₁.a = 2 from rfl, hline]
    rfl
  have hreached : Reached ⟨false, fun _ _ => 0⟩ bankRom s₂ := by
    refine ⟨2, ?_, show 2 < 4096 by decide⟩
    rw [mainLoop_step (show 0 < 4096 by decide) hstep₁,
      mainLoop_step (show 1 < 4096 by decide) hstep₂]
    rfl
  have hfits := (step_defined s₂).mp (hall s₂ hreached)
  have hop : op s₂ = .rdm := by
    rw [op, hcode₂]
    decide
  have hsafe := (safe_iff_fits (reached_bounded hreached)).mp hfits
  rw [Safe, hop] at hsafe
  exact hsafe.1 rfl

end Quals2017.Faggin
