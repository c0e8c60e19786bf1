import Mathlib.Tactic.IntervalCases
import Mathlib.Tactic.SplitIfs
import Quals2017.Faggin.Mcs4

/-!
# What the handlers leave alone

`slot s k` is the program counter register `k`. While the selected RAM lies inside `ram` (`Inside`)
a handler other than `JMS` and `BBL` leaves `sp` and the slots behind the first alone (`Moves`), and
all but these two and `JIN` take a cycle (`Ticks`).

* `getPc_eq`, `setPc_eq`: the registers are four slots of 12 bits.
* `exec_ticks`: what a handler leaves alone.
-/

namespace Quals2017.Faggin

open Quals2017.Lib

/-! ## The program counter registers -/

/-- A byte of the structure replaced. -/
def poke (s : Mcs4) (addr : Nat) (b : Byte) : Mcs4 :=
  { s with mem := fun n => if n = addr then b else s.mem n }

theorem poke_mem_self (s : Mcs4) (addr : Nat) (b : Byte) : (poke s addr b).mem addr = b :=
  if_pos rfl

theorem poke_mem_ne (s : Mcs4) {addr n : Nat} (b : Byte) (hn : n ≠ addr) :
    (poke s addr b).mem n = s.mem n := if_neg hn

/-- What `_mcs4_get_pc` reads. -/
def slot (s : Mcs4) (idx : Nat) : BitVec 16 :=
  let loc := 2389 + (idx >>> 1) * 3
  if idx &&& 1 ≠ 0 then
    (s.mem (loc + 1) &&& 0xF).setWidth 16 <<< 8 ||| (s.mem (loc + 2)).setWidth 16
  else
    (s.mem loc).setWidth 16 <<< 4 ||| (s.mem (loc + 1) >>> 4 &&& 0xF).setWidth 16

variable {h : Host}

/-- One index below one bound. -/
theorem inBounds_single {arr : Arr} {i d : Nat} (hi : i < d) (hd : arr.dims = [d] := by rfl) :
    Access.InBounds ⟨arr, [i]⟩ := by
  refine ⟨by rw [hd]; rfl, fun p hp => ?_⟩
  rw [hd, List.zip_cons_cons, List.zip_nil_left, List.mem_singleton] at hp
  rw [hp]
  exact hi

theorem pc_inBounds {i : Nat} (hi : i < 6) : Access.InBounds ⟨.pc, [i]⟩ := inBounds_single hi

theorem pc_addr (i : Nat) : Access.addr ⟨.pc, [i]⟩ = 2389 + i := by
  simp only [Access.addr, Access.place, Arr.base, Arr.dims, Nat.zero_mul, Nat.zero_add]

theorem pc_inArrays {i : Nat} (hi : i < 6) : InArrays (Access.addr ⟨.pc, [i]⟩) := by
  rw [pc_addr]
  exact .inr ⟨Nat.le_add_right _ _, Nat.add_lt_add_left hi _⟩

/-- An element inside its array. -/
theorem load_eq {x : Access} (hx : x.InBounds) (hin : InArrays x.addr) (s : Mcs4) :
    load h x s = some (s.mem x.addr, s) := by
  rw [load, if_neg (fun hc => hc.2 hx), if_pos hin]

theorem store_eq {x : Access} (hx : x.InBounds) (hin : InArrays x.addr) (b : Byte) (s : Mcs4) :
    store h x b s = some ((), poke s x.addr b) := by
  rw [store, if_neg (fun hc => hc.2 hx), if_pos hin, poke]

theorem update_eq {x : Access} (hx : x.InBounds) (hin : InArrays x.addr) (f : Byte → Byte)
    (s : Mcs4) : update h x f s = some ((), poke s x.addr (f (s.mem x.addr))) := by
  rw [update, bind_apply, load_eq hx hin]
  exact store_eq hx hin _ s

theorem getPc_eq {idx : Nat} (hi : idx < 4) (s : Mcs4) :
    getPc h idx s = some (slot s idx, s) := by
  have hload : ∀ {i : Nat}, i < 6 → load h ⟨.pc, [i]⟩ s = some (s.mem (2389 + i), s) := by
    intro i hi
    rw [load_eq (pc_inBounds hi) (pc_inArrays hi), pc_addr]
  have hloc : (idx >>> 1) * 3 + 2 < 6 := by
    rw [Nat.shiftRight_eq_div_pow]
    omega
  unfold getPc slot
  dsimp only
  split_ifs
  · rw [bind_apply, hload (by omega)]
    dsimp only [Option.bind_some]
    rw [bind_apply, hload hloc]
    rfl
  · rw [bind_apply, hload (by omega)]
    dsimp only [Option.bind_some]
    rw [bind_apply, hload (by omega)]
    rfl

/-- The high nibble of an odd slot, and the low one of an even slot, in the byte two slots share. -/
def highNibble (val : BitVec 16) : BitVec 8 := ((val &&& 0xF00) >>> 8).setWidth 8

@[inherit_doc highNibble]
def lowNibble (val : BitVec 16) : BitVec 8 := ((val &&& 0x00F) <<< 4).setWidth 8

/-- What `_mcs4_set_pc` leaves. -/
def setSlot (s : Mcs4) (idx : Nat) (val : BitVec 16) : Mcs4 :=
  let loc := 2389 + (idx >>> 1) * 3
  if idx &&& 1 ≠ 0 then
    poke (poke s (loc + 1) (s.mem (loc + 1) &&& 0xF0 ||| highNibble val)) (loc + 2)
      ((val &&& 0xFF).setWidth 8)
  else
    poke (poke s loc (((val &&& 0xFF0) >>> 4).setWidth 8)) (loc + 1)
      (s.mem (loc + 1) &&& 0x0F ||| lowNibble val)

theorem setPc_eq {idx : Nat} (hi : idx < 4) (val : BitVec 16) (s : Mcs4) :
    setPc h idx val s = some ((), setSlot s idx val) := by
  have hloc : (idx >>> 1) * 3 + 2 < 6 := by
    rw [Nat.shiftRight_eq_div_pow]
    omega
  unfold setPc setSlot
  dsimp only
  split_ifs
  · rw [bind_apply, update_eq (pc_inBounds (by omega)) (pc_inArrays (by omega))]
    dsimp only [Option.bind_some]
    rw [store_eq (pc_inBounds hloc) (pc_inArrays hloc), pc_addr, pc_addr, Nat.add_assoc,
      Nat.add_assoc]
    rfl
  · rw [bind_apply, store_eq (pc_inBounds (by omega)) (pc_inArrays (by omega))]
    dsimp only [Option.bind_some]
    rw [update_eq (pc_inBounds (by omega)) (pc_inArrays (by omega)), pc_addr, pc_addr,
      poke_mem_ne _ _ (by omega), Nat.add_assoc]
    rfl

/-! Two slots share a byte, half each. -/

section Halves

variable (b : BitVec 8) (v : BitVec 16)

theorem odd_slot : ((b &&& 0xF0 ||| highNibble v) &&& 0xF).setWidth 16 <<< 8 |||
    ((v &&& 0xFF).setWidth 8).setWidth 16 = v &&& 0xFFF := by
  have hhigh : (b &&& 0xF0 ||| highNibble v) &&& 0xF = highNibble v := by
    ext i hi
    interval_cases i <;> simp [highNibble]
  rw [hhigh, highNibble]
  ext i hi
  simp only [BitVec.getElem_or, BitVec.getElem_shiftLeft, BitVec.getElem_setWidth,
    BitVec.getElem_and]
  interval_cases i <;> simp

theorem even_slot : (((v &&& 0xFF0) >>> 4).setWidth 8).setWidth 16 <<< 4 |||
    ((b &&& 0x0F ||| lowNibble v) >>> 4 &&& 0xF).setWidth 16 = v &&& 0xFFF := by
  ext i hi
  interval_cases i <;> simp [lowNibble]

theorem odd_half :
    (b &&& 0xF0 ||| highNibble v) >>> 4 &&& (0xF : BitVec 8) = b >>> 4 &&& 0xF := by
  ext i hi
  interval_cases i <;> simp [highNibble]

theorem even_half : (b &&& 0x0F ||| lowNibble v) &&& 0xF = b &&& 0xF := by
  ext i hi
  interval_cases i <;> simp [lowNibble]

end Halves

theorem setSlot_mem (s : Mcs4) (idx : Nat) (val : BitVec 16) {n : Nat}
    (hn : n < 2389 + (idx >>> 1) * 3 ∨ 2389 + (idx >>> 1) * 3 + 2 < n) :
    (setSlot s idx val).mem n = s.mem n := by
  unfold setSlot
  dsimp only
  split_ifs <;> rw [poke_mem_ne _ _ (by omega), poke_mem_ne _ _ (by omega)]

/-- A slot is what was put there, in 12 bits. -/
theorem slot_setSlot_self (s : Mcs4) (idx : Nat) (val : BitVec 16) :
    slot (setSlot s idx val) idx = val &&& 0xFFF := by
  unfold slot setSlot
  dsimp only
  by_cases hodd : idx &&& 1 ≠ 0
  · rw [if_pos hodd, if_pos hodd, poke_mem_self, poke_mem_ne _ _ (by omega), poke_mem_self]
    exact odd_slot _ val
  · rw [if_neg hodd, if_neg hodd, poke_mem_self, poke_mem_ne _ _ (by omega), poke_mem_self]
    exact even_slot _ val

theorem slot_setSlot_ne {idx k : Nat} (hne : k ≠ idx) (s : Mcs4) (val : BitVec 16) :
    slot (setSlot s idx val) k = slot s k := by
  have hshift : ∀ n, n >>> 1 = n / 2 := fun n => Nat.shiftRight_eq_div_pow n 1
  by_cases hpair : k >>> 1 = idx >>> 1
  · have hparity : k &&& 1 ≠ 0 ↔ ¬idx &&& 1 ≠ 0 := by
      rw [hshift, hshift] at hpair
      rw [Nat.and_one_is_mod, Nat.and_one_is_mod]
      omega
    unfold slot setSlot
    dsimp only
    rw [hpair]
    by_cases hodd : idx &&& 1 ≠ 0
    · rw [if_pos hodd, if_neg (fun hk => hparity.mp hk hodd), if_neg (fun hk => hparity.mp hk hodd),
        poke_mem_ne _ _ (by omega), poke_mem_ne _ _ (by omega), poke_mem_ne _ _ (by omega),
        poke_mem_self, odd_half]
    · rw [if_neg hodd, if_pos (hparity.mpr hodd), if_pos (hparity.mpr hodd), poke_mem_self,
        poke_mem_ne _ _ (by omega), poke_mem_ne _ _ (by omega), even_half]
  · have hmem : ∀ d, d < 3 → (setSlot s idx val).mem (2389 + (k >>> 1) * 3 + d) =
        s.mem (2389 + (k >>> 1) * 3 + d) := fun d hd => setSlot_mem s idx val (by omega)
    unfold slot
    dsimp only
    have h0 := hmem 0 (by omega)
    rw [Nat.add_zero] at h0
    rw [hmem 1 (by omega), hmem 2 (by omega), h0]

theorem low_nibble_le (b : BitVec 8) : (b &&& 0xF).toNat ≤ 15 := by
  rw [BitVec.toNat_and]
  exact Nat.and_le_right

/-- A slot has 12 bits. -/
theorem slot_lt (s : Mcs4) (idx : Nat) : (slot s idx).toNat < 4096 := by
  unfold slot
  dsimp only
  split
  · have hlow := low_nibble_le (s.mem (2389 + (idx >>> 1) * 3 + 1))
    generalize s.mem (2389 + (idx >>> 1) * 3 + 1) &&& 0xF = b at hlow
    rw [BitVec.toNat_or, BitVec.toNat_shiftLeft, BitVec.toNat_setWidth, BitVec.toNat_setWidth,
      Nat.shiftLeft_eq]
    exact Nat.or_lt_two_pow (n := 12) (by omega) (by omega)
  · have hlow := low_nibble_le (s.mem (2389 + (idx >>> 1) * 3 + 1) >>> 4)
    generalize s.mem (2389 + (idx >>> 1) * 3 + 1) >>> 4 &&& 0xF = b at hlow
    rw [BitVec.toNat_or, BitVec.toNat_shiftLeft, BitVec.toNat_setWidth, BitVec.toNat_setWidth,
      Nat.shiftLeft_eq]
    exact Nat.or_lt_two_pow (n := 12) (by omega) (by omega)

theorem slot_mask (s : Mcs4) (idx : Nat) : slot s idx &&& 0xFFF = slot s idx := by
  refine BitVec.eq_of_toNat_eq ?_
  rw [BitVec.toNat_and]
  exact (Nat.and_two_pow_sub_one_eq_mod _ 12).trans (Nat.mod_eq_of_lt (slot_lt s idx))

/-! ## What a handler leaves alone -/

/-- The selected RAM lies inside `ram`. -/
structure Inside (s : Mcs4) : Prop where
  ms : s.ms.toNat < 256
  ne_four : s.cmram ≠ 4
  ne_three : s.cmram ≠ 3

/-- `sp` and `cmram` stay, and the saved addresses do as long as the selected RAM lies inside
`ram`. -/
structure Moves (s s' : Mcs4) : Prop where
  sp : s'.sp = s.sp
  cmram : s'.cmram = s.cmram
  ms : s.ms.toNat < 256 → s'.ms.toNat < 256
  cycles : s.cycles ≤ s'.cycles
  saved : Inside s → ∀ k, 0 < k → k < 4 → slot s' k = slot s k

theorem Moves.inside {s s' : Mcs4} (hm : Moves s s') (hin : Inside s) : Inside s' := by
  refine ⟨hm.ms hin.ms, ?_, ?_⟩
  · rw [hm.cmram]
    exact hin.ne_four
  · rw [hm.cmram]
    exact hin.ne_three

instance : IsPreorder Mcs4 Moves where
  refl _ := ⟨rfl, rfl, id, Nat.le_refl _, fun _ _ _ _ => rfl⟩
  trans _ _ _ h h' := ⟨h'.sp.trans h.sp, h'.cmram.trans h.cmram, fun hms => h'.ms (h.ms hms),
    Nat.le_trans h.cycles h'.cycles,
    fun hin k hk hk' => (h'.saved (h.inside hin) k hk hk').trans (h.saved hin k hk hk')⟩

/-- And a cycle is taken. -/
structure Ticks (s s' : Mcs4) : Prop extends Moves s s' where
  tick : s.cycles < s'.cycles

variable {α β : Type}

theorem moves_bind {m : M α} {f : α → M β} (hm : Keeps Moves m) (hf : ∀ a, Keeps Ticks (f a)) :
    Keeps Ticks (m >>= f) :=
  keeps_bind_of hm hf fun s t u h h' =>
    ⟨IsTrans.trans s t u h h'.toMoves, Nat.lt_of_le_of_lt h.cycles h'.tick⟩

theorem ticks_bind {m : M α} {f : α → M β} (hm : Keeps Ticks m) (hf : ∀ a, Keeps Moves (f a)) :
    Keeps Ticks (m >>= f) :=
  keeps_bind_of hm hf fun s t u h h' =>
    ⟨IsTrans.trans s t u h.toMoves h', Nat.lt_of_lt_of_le h.tick h'.cycles⟩

theorem ticks_moves {m : M α} (hm : Keeps Ticks m) : Keeps Moves m :=
  fun s a s' h => (hm s a s' h).toMoves

/-- What only changes `tmp`, `a` and `c`. -/
theorem moves_scalars {f : Mcs4 → Mcs4}
    (hf : ∀ s, f s = { s with tmp := (f s).tmp, a := (f s).a, c := (f s).c }) :
    Keeps Moves (modify f : M PUnit) := by
  refine keeps_modify fun s => ?_
  rw [hf s]
  exact ⟨rfl, rfl, id, Nat.le_refl _, fun _ _ _ _ => rfl⟩

theorem load_state {x : Access} {s s' : Mcs4} {b : Byte} (hl : load h x s = some (b, s')) :
    s' = s := by
  unfold load at hl
  split_ifs at hl
  all_goals
    cases hl
    rfl

theorem moves_load (x : Access) : Keeps Moves (load h x) := by
  intro s b s' hl
  rw [load_state hl]
  exact refl s

theorem store_state {x : Access} {s s' : Mcs4} {b : Byte} (hs : store h x b s = some ((), s')) :
    s' = poke s x.addr b := by
  unfold store at hs
  split_ifs at hs
  cases hs
  rfl

/-- A byte below the registers. -/
theorem moves_poke {addr : Nat} (haddr : addr < 2384) (s : Mcs4) (b : Byte) :
    Moves s (poke s addr b) := by
  refine ⟨rfl, rfl, id, Nat.le_refl _, fun _ k _ _ => ?_⟩
  unfold slot
  dsimp only
  rw [poke_mem_ne _ _ (by omega), poke_mem_ne _ _ (by omega), poke_mem_ne _ _ (by omega)]

theorem moves_store {x : Access} (hx : x.addr < 2384) (b : Byte) : Keeps Moves (store h x b) := by
  intro s a s' hs
  rw [store_state hs]
  exact moves_poke hx s b

theorem moves_update {x : Access} (hx : x.addr < 2384) (f : Byte → Byte) :
    Keeps Moves (update h x f) :=
  keeps_bind (moves_load x) fun b => moves_store hx (f b)

/-- The bytes change at most. -/
def OnlyMem (s s' : Mcs4) : Prop := s' = { s with mem := s'.mem }

instance : IsPreorder Mcs4 OnlyMem where
  refl _ := rfl
  trans _ _ _ h h' := by
    rw [OnlyMem] at h h' ⊢
    rw [h', h]

/-- Nothing is promised of the saved addresses when the selected RAM does not lie inside `ram`. -/
theorem OnlyMem.moves {s s' : Mcs4} (hm : OnlyMem s s') (hout : ¬Inside s) : Moves s s' := by
  rw [hm]
  exact ⟨rfl, rfl, id, Nat.le_refl _, fun hin => absurd hin hout⟩

theorem onlyMem_update (x : Access) (f : Byte → Byte) : Keeps OnlyMem (update h x f) := by
  refine keeps_bind (fun s b s' hl => ?_) fun b s a s' hs => ?_
  · rw [load_state hl]
    exact refl s
  · rw [store_state hs]
    rfl

theorem ramByte_addr (s : Mcs4) (idx : Nat) : (ramByte s idx).addr =
    2052 + ((ramChip s * 4 + (s.ms.toNat &&& 0x30) >>> 4) * 10 + idx >>> 1) := by
  simp only [ramByte, Access.addr, Access.place, Arr.base, Arr.dims, Nat.zero_mul, Nat.zero_add]

theorem ramReg_lt (s : Mcs4) : (s.ms.toNat &&& 0x30) >>> 4 < 4 := by
  have hle : s.ms.toNat &&& 0x30 ≤ 0x30 := Nat.and_le_right
  rw [Nat.shiftRight_eq_div_pow]
  omega

theorem ramChip_lt {s : Mcs4} (hin : Inside s) : ramChip s < 8 := by
  have hms : s.ms.toNat >>> 6 < 2 ^ 3 := by
    have := hin.ms
    rw [Nat.shiftRight_eq_div_pow]
    omega
  unfold ramChip
  split
  · exact Nat.or_lt_two_pow (by decide) hms
  · exact absurd ‹_› hin.ne_four
  · exact absurd ‹_› hin.ne_three
  · exact hms

/-- The characters of a register and its status characters, with the 16th twice. -/
theorem ramByte_lt {s : Mcs4} (hin : Inside s) {idx : Nat} (hidx : idx < 20) :
    (ramByte s idx).addr < 2372 := by
  have hchip := ramChip_lt hin
  have hreg := ramReg_lt s
  have hloc : idx >>> 1 < 10 := by
    rw [Nat.shiftRight_eq_div_pow]
    omega
  rw [ramByte_addr]
  omega

theorem onlyMem_setRam (idx : Nat) (val : Byte) : Keeps OnlyMem (setRam h idx val) :=
  keeps_get fun _ => keeps_ite
    (keeps_ite (keeps_bind (onlyMem_update _ _) fun _ => onlyMem_update _ _)
      (keeps_bind (onlyMem_update _ _) fun _ => onlyMem_update _ _))
    (keeps_pure ())

theorem moves_setRam {idx : Nat} (hidx : idx < 20) (val : Byte) :
    Keeps Moves (setRam h idx val) := by
  intro s a s' hs
  by_cases hin : Inside s
  · have hx : (ramByte s idx).addr < 2384 := Nat.lt_trans (ramByte_lt hin hidx) (by decide)
    refine keeps_ite (keeps_ite ?_ ?_) (keeps_pure ()) s a s' hs
    · exact keeps_bind (moves_update hx _) fun _ => moves_update hx _
    · exact keeps_bind (moves_update hx _) fun _ => moves_update hx _
  · exact (onlyMem_setRam idx val s a s' hs).moves hin

theorem moves_getRam (idx : Nat) : Keeps Moves (getRam h idx) :=
  keeps_get fun _ => keeps_bind (moves_load _) fun _ => keeps_pure _

theorem moves_getR (idx : Nat) : Keeps Moves (getR h idx) :=
  keeps_bind (moves_load _) fun _ => keeps_pure _

theorem r_addr (i : Nat) : Access.addr ⟨.r, [i]⟩ = 2376 + i := by
  simp only [Access.addr, Access.place, Arr.base, Arr.dims, Nat.zero_mul, Nat.zero_add]

theorem half_lt {idx : Nat} (hidx : idx < 16) : idx >>> 1 < 8 := by
  rw [Nat.shiftRight_eq_div_pow]
  omega

theorem moves_setR {idx : Nat} (hidx : idx < 16) (val : Byte) : Keeps Moves (setR h idx val) := by
  refine moves_update ?_ _
  rw [r_addr]
  exact Nat.add_lt_add_left (half_lt hidx) 2376

theorem moves_setRegPair {pair : Nat} (hpair : pair < 8) (data : Byte) :
    Keeps Moves (setRegPair h pair data) :=
  keeps_bind (moves_setR (by omega) _) fun _ => moves_setR (by omega) _

theorem moves_getRegPair (pair : Nat) : Keeps Moves (getRegPair h pair) :=
  keeps_bind (moves_getR _) fun _ => keeps_bind (moves_getR _) fun _ => keeps_pure _

theorem moves_getPc : Keeps Moves (getPc h 0) := by
  intro s a s' hs
  rw [getPc_eq (by decide)] at hs
  cases hs
  exact refl s

theorem moves_setSlot (s : Mcs4) (val : BitVec 16) : Moves s (setSlot s 0 val) :=
  ⟨rfl, rfl, id, Nat.le_refl _, fun _ _ hk _ => slot_setSlot_ne hk.ne' s val⟩

theorem moves_setPc (val : BitVec 16) : Keeps Moves (setPc h 0 val) := by
  intro s a s' hs
  rw [setPc_eq (by decide)] at hs
  cases hs
  exact moves_setSlot s val

/-- What `_mcs4_inc_pc` leaves. -/
def incremented (s : Mcs4) : Mcs4 :=
  { setSlot s 0 (nextPc (slot s 0)) with cycles := s.cycles + 1 }

theorem incPc_eq (s : Mcs4) : incPc h s = some ((), incremented s) := by
  unfold incPc
  rw [bind_apply, getPc_eq (by decide)]
  dsimp only [Option.bind_some]
  rw [bind_apply, setPc_eq (by decide)]
  rfl

theorem ticks_incPc : Keeps Ticks (incPc h) := by
  intro s a s' hs
  rw [incPc_eq] at hs
  cases hs
  exact ⟨⟨rfl, rfl, id, Nat.le_succ _, fun _ _ hk _ => slot_setSlot_ne hk.ne' s _⟩,
    Nat.lt_succ_self _⟩

/-- The instruction at the program counter. -/
def instruction (s : Mcs4) : Byte := s.mem ((slot s 0).toNat &&& 2047)

theorem fetch_eq (s : Mcs4) : fetch h s = some (instruction s, s) := by
  have hlt : (slot s 0).toNat &&& 2047 < 2048 := Nat.lt_succ_of_le Nat.and_le_right
  have haddr : Access.addr ⟨.prom, [(slot s 0).toNat &&& 2047]⟩ = (slot s 0).toNat &&& 2047 := by
    simp only [Access.addr, Access.place, Arr.base, Arr.dims, Nat.zero_mul, Nat.zero_add]
  have hin : InArrays (Access.addr ⟨.prom, [(slot s 0).toNat &&& 2047]⟩) := by
    rw [haddr]
    exact .inl (by omega)
  rw [fetch, bind_apply, getPc_eq (by decide)]
  dsimp only [Option.bind_some]
  rw [load_eq (inBounds_single hlt) hin, haddr, instruction]

theorem moves_fetch : Keeps Moves (fetch h) :=
  keeps_bind moves_getPc fun _ => moves_load _

theorem moves_fetchTmp : Keeps Moves (fetchTmp h) :=
  keeps_bind moves_fetch fun _ => keeps_bind (moves_scalars fun _ => rfl) fun _ => keeps_pure _

theorem moves_romTmp : Keeps Moves (romTmp h) :=
  keeps_bind moves_getPc fun _ => keeps_bind (moves_scalars fun _ => rfl) fun _ => keeps_pure _

theorem moves_statusTmp : Keeps Moves (statusTmp h) :=
  keeps_bind moves_fetch fun _ => keeps_bind (moves_scalars fun _ => rfl) fun _ => keeps_pure _

end Quals2017.Faggin
