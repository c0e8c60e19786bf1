import Quals2017.Reeses.Lzss.Code
import Mathlib.Tactic.SplitIfs

/-!
# What the decoder's loop does, code by code

A bit string is a sequence of codes, cut off by `nextCode`: `1` and a byte, or `0`, a position and
a length. `runCodes` says what the codes write and leave in the ring, over cells of any type.
`rounds_codes` says that the rounds of `decodeLoop` run the codes of its input one by one, whatever
the port is, and `decode_eq` is the case of the file decoder: `decode` always ends, and writes what
`runCodes` says.

The port may keep `m` bytes at the end of its input that a write can still change
(`Port.Lawful.m`). The codes that end before these bytes are run all the same.
-/

namespace Quals2017.Reeses.Lzss

open Quals2017.Lib.BitStream

/-- A code of the bit stream: a byte, or a match at position `i` of length `j + 2`. -/
inductive Code where
  | lit (c : Nat)
  | copy (i j : Nat)
  deriving Repr, DecidableEq

/-- The first code of a bit string and the bits behind it, if a whole code is there. -/
def nextCode : List Bool → Option (Code × List Bool)
  | [] => none
  | true :: bs => if 8 ≤ bs.length then some (.lit (spell 0 (bs.take 8)), bs.drop 8) else none
  | false :: bs =>
    if EI + EJ ≤ bs.length then
      some (.copy (spell 0 (bs.take EI)) (spell 0 ((bs.drop EI).take EJ)), bs.drop (EI + EJ))
    else none

theorem nextCode_length {bs r : List Bool} {c : Code} (h : nextCode bs = some (c, r)) :
    r.length < bs.length := by
  unfold nextCode at h
  split at h
  · exact absurd h (by simp)
  all_goals
    split_ifs at h
    simp only [Option.some.injEq, Prod.mk.injEq] at h
    rw [← h.2, List.length_drop, List.length_cons]
    omega

/-- All the codes of a bit string, and the bits left over. -/
def codes (bs : List Bool) : List Code × List Bool :=
  match _h : nextCode bs with
  | none => ([], bs)
  | some (c, rest) => (c :: (codes rest).1, (codes rest).2)
termination_by bs.length
decreasing_by all_goals exact nextCode_length _h

theorem codes_none {bs : List Bool} (h : nextCode bs = none) : codes bs = ([], bs) := by
  rw [codes]
  split
  · rfl
  · rename_i h'
    rw [h] at h'
    exact absurd h' (by simp)

theorem codes_some {bs r : List Bool} {c : Code} (h : nextCode bs = some (c, r)) :
    codes bs = (c :: (codes r).1, (codes r).2) := by
  rw [codes]
  split
  · rename_i h'
    rw [h] at h'
    exact absurd h' (by simp)
  · rename_i h'
    rw [h] at h'
    obtain ⟨rfl, rfl⟩ := Prod.mk.inj (Option.some.inj h')
    rfl

/-- No whole code is left over. -/
theorem nextCode_residual (bs : List Bool) : nextCode (codes bs).2 = none := by
  cases h : nextCode bs with
  | none => rw [codes_none h]; exact h
  | some p =>
    rw [codes_some (c := p.1) (r := p.2) h]
    exact nextCode_residual p.2
termination_by bs.length
decreasing_by exact nextCode_length (c := p.1) (r := p.2) h

theorem codes_length_le (bs : List Bool) : (codes bs).1.length ≤ bs.length := by
  cases h : nextCode bs with
  | none => rw [codes_none h]; exact Nat.zero_le _
  | some p =>
    have hlt := nextCode_length (c := p.1) (r := p.2) h
    rw [codes_some (c := p.1) (r := p.2) h]
    have ih := codes_length_le p.2
    simp only [List.length_cons]
    omega
termination_by bs.length
decreasing_by exact nextCode_length (c := p.1) (r := p.2) h

/-! ## Running codes on a ring of any cells -/

section Run

variable {α : Type}

/-- The cells the copy loop writes, and the ring after it. -/
def copyOut (i : Nat) : Nat → Nat → Ring α → List α × Ring α
  | 0, _, w => ([], w)
  | n + 1, k, w =>
    let c := w.buffer ((i + k) &&& (N - 1))
    (c :: (copyOut i n (k + 1) (w.push c)).1, (copyOut i n (k + 1) (w.push c)).2)

theorem copyOut_length (i : Nat) : ∀ (n k : Nat) (w : Ring α), (copyOut i n k w).1.length = n
  | 0, _, _ => rfl
  | n + 1, k, w => by rw [copyOut, List.length_cons, copyOut_length i n]

/-- The cells one code writes, and the ring after it; `lit` makes a cell of a byte. -/
def runCode (lit : UInt8 → α) : Code → Ring α → List α × Ring α
  | .lit c, w => ([lit (UInt8.ofNat c)], w.push (lit (UInt8.ofNat c)))
  | .copy i j, w => copyOut i (j + 2) 0 w

/-- The cells a list of codes writes, and the ring after it. -/
def runCodes (lit : UInt8 → α) : List Code → Ring α → List α × Ring α
  | [], w => ([], w)
  | c :: cs, w =>
    ((runCode lit c w).1 ++ (runCodes lit cs (runCode lit c w).2).1,
      (runCodes lit cs (runCode lit c w).2).2)

theorem runCodes_append (lit : UInt8 → α) (cs ds : List Code) (w : Ring α) :
    runCodes lit (cs ++ ds) w =
      ((runCodes lit cs w).1 ++ (runCodes lit ds (runCodes lit cs w).2).1,
        (runCodes lit ds (runCodes lit cs w).2).2) := by
  induction cs generalizing w with
  | nil => rfl
  | cons c cs ih =>
    rw [List.cons_append, runCodes, ih, runCodes]
    simp only [List.append_assoc]

variable {β : Type} (f : α → β)

/-- A ring with `f` applied to every cell. -/
def Ring.map (w : Ring α) : Ring β := ⟨f ∘ w.buffer, w.r⟩

theorem Ring.map_push (c : α) (w : Ring α) : (w.push c).map f = (w.map f).push (f c) := by
  unfold Ring.push Ring.map
  simp only [Ring.mk.injEq, and_true]
  exact Function.comp_update f w.buffer w.r c

theorem copyOut_map (i : Nat) : ∀ (n k : Nat) (w : Ring α),
    copyOut i n k (w.map f) = ((copyOut i n k w).1.map f, (copyOut i n k w).2.map f)
  | 0, _, _ => rfl
  | n + 1, k, w => by
    have hc : (w.map f).buffer ((i + k) &&& (N - 1)) = f (w.buffer ((i + k) &&& (N - 1))) := rfl
    rw [copyOut, copyOut, hc, ← Ring.map_push, copyOut_map i n]
    rfl

theorem runCode_map {lit : UInt8 → α} (c : Code) (w : Ring α) :
    runCode (f ∘ lit) c (w.map f) = ((runCode lit c w).1.map f, (runCode lit c w).2.map f) := by
  cases c with
  | lit c => rw [runCode, runCode, Ring.map_push]; rfl
  | copy i j => exact copyOut_map f i (j + 2) 0 w

/-- **Codes run alike on cells that stand for others**: to run them on what the cells stand for is
to run them on the cells, and then look up what was written. -/
theorem runCodes_map {lit : UInt8 → α} (cs : List Code) (w : Ring α) :
    runCodes (f ∘ lit) cs (w.map f) =
      ((runCodes lit cs w).1.map f, (runCodes lit cs w).2.map f) := by
  induction cs generalizing w with
  | nil => rfl
  | cons c cs ih => rw [runCodes, runCodes, runCode_map, ih, List.map_append]

end Run

/-! ## The loop on a lawful port -/

/-- What a port promises: reading leaves the output alone, and writing appends to it while there
is room. `m` bytes at the end of the input may change when a byte is written. -/
structure Port.Lawful {σ : Type} (port : Port σ) where
  written : σ → List UInt8
  room : Nat → Prop
  m : Nat
  written_next : ∀ s, written (port.next s).2 = written s
  write_some : ∀ c s, room (written s).length → ∃ s', port.writeByte c s = some s' ∧
    written s' = written s ++ [c] ∧
    ∀ l e, port.rest s = l ++ e → e.length = m → ∃ e', e'.length = m ∧ port.rest s' = l ++ e'
  write_none : ∀ c s, ¬ room (written s).length → port.writeByte c s = none

section Loop

variable {σ : Type} {port : Port σ} (law : port.Lawful)

/-- `n` more bytes can be written after `len` of them. -/
def Port.Lawful.Fits (len n : Nat) : Prop := ∀ k, k < n → law.room (len + k)

/-- `st` reads the bytes `l`, then `m` bytes that are not settled yet. -/
structure Reads (st : DecState σ) (l : List UInt8) : Prop where
  wf : st.rd.WF
  rest : ∃ e, e.length = law.m ∧ port.rest st.io = l ++ e

/-- `io'` is `io` with `out` written. -/
def Appends (io io' : σ) (out : List UInt8) : Prop :=
  law.written io' = law.written io ++ out ∧
    ∀ l e, port.rest io = l ++ e → e.length = law.m →
      ∃ e', e'.length = law.m ∧ port.rest io' = l ++ e'

variable {law}

theorem fits_succ {len n : Nat} : law.Fits len (n + 1) ↔ law.room len ∧ law.Fits (len + 1) n := by
  constructor
  · intro h
    refine ⟨h 0 (Nat.succ_pos n), fun k hk => ?_⟩
    have := h (k + 1) (by omega)
    rwa [← Nat.add_assoc, Nat.add_right_comm] at this
  · rintro ⟨h0, h⟩ k hk
    cases k with
    | zero => exact h0
    | succ k =>
      have := h k (by omega)
      rwa [Nat.add_right_comm] at this

theorem fits_add {len a b : Nat} :
    law.Fits len (a + b) ↔ law.Fits len a ∧ law.Fits (len + a) b := by
  constructor
  · intro h
    refine ⟨fun k hk => h k (by omega), fun k hk => ?_⟩
    rw [Nat.add_assoc]
    exact h (a + k) (by omega)
  · rintro ⟨ha, hb⟩ k hk
    by_cases hka : k < a
    · exact ha k hka
    · have := hb (k - a) (by omega)
      rwa [Nat.add_assoc, Nat.add_sub_cancel' (by omega)] at this

theorem Appends.trans {io₁ io₂ io₃ : σ} {o₁ o₂ : List UInt8} (h₁ : Appends law io₁ io₂ o₁)
    (h₂ : Appends law io₂ io₃ o₂) : Appends law io₁ io₃ (o₁ ++ o₂) := by
  refine ⟨by rw [h₂.1, h₁.1, List.append_assoc], fun l e hr he => ?_⟩
  obtain ⟨e', he', hr'⟩ := h₁.2 l e hr he
  exact h₂.2 l e' hr' he'

theorem emit_some (c : UInt8) (st : DecState σ) (h : law.room (law.written st.io).length) :
    ∃ io', emit port c st = some ⟨st.rd, st.ring.push c, io'⟩ ∧ Appends law st.io io' [c] := by
  obtain ⟨io', hw, happ⟩ := law.write_some c st.io h
  exact ⟨io', by simp [emit, hw], happ⟩

theorem emit_none {c : UInt8} {st : DecState σ} (h : ¬ law.room (law.written st.io).length) :
    emit port c st = none := by
  simp [emit, law.write_none c st.io h]

theorem copyLoop_some (i : Nat) : ∀ (n k : Nat) (st : DecState σ),
    law.Fits (law.written st.io).length n →
    ∃ io', copyLoop port i n k st = some ⟨st.rd, (copyOut i n k st.ring).2, io'⟩ ∧
      Appends law st.io io' (copyOut i n k st.ring).1
  | 0, _, st, _ => ⟨st.io, rfl, by simp [copyOut], fun _ e hr he => ⟨e, he, hr⟩⟩
  | n + 1, k, st, h => by
    obtain ⟨hroom, hfit⟩ := fits_succ.mp h
    obtain ⟨io₁, he, happ₁⟩ := emit_some (st.ring.buffer ((i + k) &&& (N - 1))) st hroom
    have hlen : (law.written io₁).length = (law.written st.io).length + 1 := by
      rw [happ₁.1, List.length_append, List.length_singleton]
    obtain ⟨io₂, hl, happ₂⟩ := copyLoop_some i n (k + 1)
      ⟨st.rd, st.ring.push (st.ring.buffer ((i + k) &&& (N - 1))), io₁⟩ (by rw [hlen]; exact hfit)
    refine ⟨io₂, ?_, happ₁.trans happ₂⟩
    rw [copyLoop, he]
    exact hl

theorem copyLoop_none (i : Nat) : ∀ (n k : Nat) (st : DecState σ),
    ¬ law.Fits (law.written st.io).length n → copyLoop port i n k st = none
  | 0, _, _, h => absurd (fun _ hk => absurd hk (Nat.not_lt_zero _)) h
  | n + 1, k, st, h => by
    rw [fits_succ, not_and_or] at h
    rw [copyLoop]
    by_cases hroom : law.room (law.written st.io).length
    · obtain ⟨io₁, he, happ₁⟩ := emit_some (st.ring.buffer ((i + k) &&& (N - 1))) st hroom
      have hlen : (law.written io₁).length = (law.written st.io).length + 1 := by
        rw [happ₁.1, List.length_append, List.length_singleton]
      rw [he]
      exact copyLoop_none i n (k + 1) ⟨st.rd, _, io₁⟩
        (by rw [hlen]; exact h.resolve_left (not_not_intro hroom))
    · rw [emit_none hroom]
      rfl

theorem getbit_written (law : port.Lawful) (n : Nat) (st : DecState σ) :
    law.written (getbit port n st).2.io = law.written st.io :=
  fetch_frame port.toSource law.written law.written_next

/-- A read that finds its bits, in a decoder state. -/
theorem getbit_some (law : port.Lawful) (n : Nat) (st : DecState σ) (bs : List Bool)
    {l e : List UInt8} {cs : List Bool}
    (hwf : st.rd.WF) (hr : port.rest st.io = l ++ e) (hn : bs.length = n)
    (hp : pending st.rd l = bs ++ cs) :
    ∃ rd' io' l', getbit port n st = (some (spell 0 bs), ⟨rd', st.ring, io'⟩) ∧ rd'.WF ∧
      port.rest io' = l' ++ e ∧ pending rd' l' = cs ∧ law.written io' = law.written st.io := by
  obtain ⟨rd', io', l', hf, hwf', hr', hp'⟩ :=
    fetch_some port.toSource (x := 0) hwf hr hn hp
  have hw := getbit_written law n st
  simp only [getbit, hf] at hw
  exact ⟨rd', io', l', by simp only [getbit, hf], hwf', hr', hp', hw⟩

/-- A read that runs out, in a decoder state. -/
theorem getbit_none (law : port.Lawful) (n : Nat) (st : DecState σ) (hwf : st.rd.WF)
    (hlt : (pending st.rd (port.rest st.io)).length < n) :
    ∃ rd' io', getbit port n st = (none, ⟨rd', st.ring, io'⟩) ∧ rd'.mask = 0 ∧
      port.rest io' = [] ∧ law.written io' = law.written st.io := by
  obtain ⟨rd', io', hf, hm, hr⟩ := fetch_none port.toSource (x := 0) hwf hlt
  have hw := getbit_written law n st
  simp only [getbit, hf] at hw
  exact ⟨rd', io', by simp only [getbit, hf], hm, hr, hw⟩

/-- The round of the loop after a code has been read. -/
def execCode (port : Port σ) : Code → DecState σ → Option (DecState σ)
  | .lit c, st => emit port (UInt8.ofNat c) st
  | .copy i j, st => copyLoop port i (j + 2) 0 st

/-- `decodeStep` is the reading of one code and its run. -/
theorem decodeStep_reads (law : port.Lawful) {st : DecState σ} {l e : List UInt8} {c : Code}
    {bs : List Bool} (hwf : st.rd.WF) (hr : port.rest st.io = l ++ e)
    (hc : nextCode (pending st.rd l) = some (c, bs)) :
    ∃ rd' io' l', rd'.WF ∧ port.rest io' = l' ++ e ∧ pending rd' l' = bs ∧
      law.written io' = law.written st.io ∧
      decodeStep port st = (execCode port c ⟨rd', st.ring, io'⟩).map (true, ·) := by
  generalize hp : pending st.rd l = ps at hc
  unfold nextCode at hc
  split at hc
  · exact absurd hc (by simp)
  · rename_i ps
    split_ifs at hc with hlen
    obtain ⟨rfl, rfl⟩ := Prod.mk.inj (Option.some.inj hc)
    obtain ⟨rd₁, io₁, l₁, hg₁, hwf₁, hr₁, hp₁, hw₁⟩ := getbit_some law 1 st [true] hwf hr rfl hp
    obtain ⟨rd₂, io₂, l₂, hg₂, hwf₂, hr₂, hp₂, hw₂⟩ :=
      getbit_some law 8 ⟨rd₁, st.ring, io₁⟩ (ps.take 8) hwf₁ hr₁
        (by rw [List.length_take]; omega) (by rw [List.take_append_drop]; exact hp₁)
    refine ⟨rd₂, io₂, l₂, hwf₂, hr₂, hp₂, hw₂.trans hw₁, ?_⟩
    simp only [decodeStep, hg₁, hg₂]
    rfl
  · rename_i ps
    split_ifs at hc with hlen
    obtain ⟨rfl, rfl⟩ := Prod.mk.inj (Option.some.inj hc)
    obtain ⟨rd₁, io₁, l₁, hg₁, hwf₁, hr₁, hp₁, hw₁⟩ := getbit_some law 1 st [false] hwf hr rfl hp
    obtain ⟨rd₂, io₂, l₂, hg₂, hwf₂, hr₂, hp₂, hw₂⟩ :=
      getbit_some law EI ⟨rd₁, st.ring, io₁⟩ (ps.take EI) hwf₁ hr₁
        (by rw [List.length_take]; omega) (by rw [List.take_append_drop]; exact hp₁)
    obtain ⟨rd₃, io₃, l₃, hg₃, hwf₃, hr₃, hp₃, hw₃⟩ :=
      getbit_some law EJ ⟨rd₂, st.ring, io₂⟩ ((ps.drop EI).take EJ) hwf₂ hr₂
        (by rw [List.length_take, List.length_drop]; omega)
        (by rw [List.take_append_drop]; exact hp₂)
    refine ⟨rd₃, io₃, l₃, hwf₃, hr₃, by rw [hp₃, List.drop_drop],
      hw₃.trans (hw₂.trans hw₁), ?_⟩
    simp only [decodeStep, hg₁, hg₂, hg₃]
    rfl

/-- A code that fits runs. -/
theorem execCode_some (c : Code) (st : DecState σ)
    (hfit : law.Fits (law.written st.io).length (runCode id c st.ring).1.length) :
    ∃ io', execCode port c st = some ⟨st.rd, (runCode id c st.ring).2, io'⟩ ∧
      Appends law st.io io' (runCode id c st.ring).1 := by
  cases c with
  | lit c =>
    have hroom : law.room (law.written st.io).length := hfit 0 (by simp [runCode])
    exact emit_some (UInt8.ofNat c) st hroom
  | copy i j =>
    rw [runCode, copyOut_length] at hfit
    exact copyLoop_some i (j + 2) 0 st hfit

/-- A code that does not fit is stuck. -/
theorem execCode_none (c : Code) (st : DecState σ)
    (hfit : ¬ law.Fits (law.written st.io).length (runCode id c st.ring).1.length) :
    execCode port c st = none := by
  cases c with
  | lit c =>
    have hroom : ¬ law.room (law.written st.io).length := by
      refine fun h0 => hfit fun k hk => ?_
      have : k = 0 := by simpa [runCode] using hk
      rwa [this]
    exact emit_none hroom
  | copy i j =>
    rw [runCode, copyOut_length] at hfit
    exact copyLoop_none i (j + 2) 0 st hfit

/-- **One round of the loop** runs the next code, when what it writes fits. -/
theorem decodeStep_code {st : DecState σ} {l : List UInt8} {c : Code} {bs : List Bool}
    (hst : Reads law st l) (hc : nextCode (pending st.rd l) = some (c, bs))
    (hfit : law.Fits (law.written st.io).length (runCode id c st.ring).1.length) :
    ∃ st' l', decodeStep port st = some (true, st') ∧ Reads law st' l' ∧
      pending st'.rd l' = bs ∧ st'.ring = (runCode id c st.ring).2 ∧
      law.written st'.io = law.written st.io ++ (runCode id c st.ring).1 := by
  obtain ⟨hwf, e, he, hr⟩ := hst
  obtain ⟨rd', io', l', hwf', hr', hp', hw', hd⟩ := decodeStep_reads law hwf hr hc
  obtain ⟨io₂, hx, happ⟩ := execCode_some c ⟨rd', st.ring, io'⟩ (by rw [hw']; exact hfit)
  obtain ⟨e₂, he₂, hr₂⟩ := happ.2 l' e hr' he
  refine ⟨⟨rd', (runCode id c st.ring).2, io₂⟩, l', ?_, ⟨hwf', e₂, he₂, hr₂⟩, hp', rfl, ?_⟩
  · rw [hd, hx, Option.map_some]
  · rw [happ.1, hw']

/-- A code that writes more than fits stops the decoder. -/
theorem decodeStep_stuck {st : DecState σ} {l : List UInt8} {c : Code} {bs : List Bool}
    (hst : Reads law st l) (hc : nextCode (pending st.rd l) = some (c, bs))
    (hfit : ¬ law.Fits (law.written st.io).length (runCode id c st.ring).1.length) :
    decodeStep port st = none := by
  obtain ⟨hwf, e, he, hr⟩ := hst
  obtain ⟨rd', io', l', hwf', hr', hp', hw', hd⟩ := decodeStep_reads law hwf hr hc
  rw [hd, execCode_none c ⟨rd', st.ring, io'⟩ (by rw [hw']; exact hfit), Option.map_none]

/-- **The last round**: without a whole code left the loop ends, with nothing read or written but
the bits left over. -/
theorem decodeStep_eof (law : port.Lawful) {st : DecState σ} (hwf : st.rd.WF)
    (hc : nextCode (pending st.rd (port.rest st.io)) = none) :
    ∃ rd' io', decodeStep port st = some (false, ⟨rd', st.ring, io'⟩) ∧ rd'.mask = 0 ∧
      port.rest io' = [] ∧ law.written io' = law.written st.io := by
  generalize hp : pending st.rd (port.rest st.io) = ps at hc
  have hr : port.rest st.io = port.rest st.io ++ [] := (List.append_nil _).symm
  unfold nextCode at hc
  split at hc
  · obtain ⟨rd₁, io₁, hg₁, hm₁, hr₁, hw₁⟩ :=
      getbit_none law 1 st hwf (by rw [hp]; exact Nat.zero_lt_one)
    exact ⟨rd₁, io₁, by simp only [decodeStep, hg₁], hm₁, hr₁, hw₁⟩
  · rename_i ps
    split_ifs at hc with hlen
    obtain ⟨rd₁, io₁, l₁, hg₁, hwf₁, hr₁, hp₁, hw₁⟩ := getbit_some law 1 st [true] hwf hr rfl hp
    rw [List.append_nil] at hr₁
    obtain ⟨rd₂, io₂, hg₂, hm₂, hr₂, hw₂⟩ :=
      getbit_none law 8 ⟨rd₁, st.ring, io₁⟩ hwf₁ (by simp only [hr₁, hp₁]; omega)
    refine ⟨rd₂, io₂, ?_, hm₂, hr₂, hw₂.trans hw₁⟩
    simp only [decodeStep, hg₁, hg₂]
    rfl
  · rename_i ps
    split_ifs at hc with hlen
    obtain ⟨rd₁, io₁, l₁, hg₁, hwf₁, hr₁, hp₁, hw₁⟩ := getbit_some law 1 st [false] hwf hr rfl hp
    rw [List.append_nil] at hr₁
    by_cases hEI : ps.length < EI
    · obtain ⟨rd₂, io₂, hg₂, hm₂, hr₂, hw₂⟩ :=
        getbit_none law EI ⟨rd₁, st.ring, io₁⟩ hwf₁ (by simp only [hr₁, hp₁]; omega)
      refine ⟨rd₂, io₂, ?_, hm₂, hr₂, hw₂.trans hw₁⟩
      simp only [decodeStep, hg₁, hg₂]
      rfl
    · obtain ⟨rd₂, io₂, l₂, hg₂, hwf₂, hr₂, hp₂, hw₂⟩ :=
        getbit_some law EI ⟨rd₁, st.ring, io₁⟩ (ps.take EI) (l := l₁) (e := []) hwf₁
          (by rw [hr₁, List.append_nil]) (by rw [List.length_take]; omega)
          (by rw [List.take_append_drop]; exact hp₁)
      rw [List.append_nil] at hr₂
      obtain ⟨rd₃, io₃, hg₃, hm₃, hr₃, hw₃⟩ :=
        getbit_none law EJ ⟨rd₂, st.ring, io₂⟩ hwf₂
          (by simp only [hr₂, hp₂, List.length_drop]; omega)
      refine ⟨rd₃, io₃, ?_, hm₃, hr₃, hw₃.trans (hw₂.trans hw₁)⟩
      simp only [decodeStep, hg₁, hg₂, hg₃]
      rfl

/-- `n` rounds of the loop, none of which leaves it. -/
def rounds (port : Port σ) : Nat → DecState σ → Option (DecState σ)
  | 0, st => some st
  | n + 1, st => do
    let (more, st) ← decodeStep port st
    if more then rounds port n st else none

theorem rounds_succ {n : Nat} {st st' : DecState σ} (h : rounds port (n + 1) st = some st') :
    ∃ st₁, decodeStep port st = some (true, st₁) ∧ rounds port n st₁ = some st' := by
  obtain ⟨⟨more, st₁⟩, hd, h⟩ := Option.bind_eq_some_iff.mp h
  cases more with
  | false => exact absurd h (by simp)
  | true => exact ⟨st₁, hd, h⟩

/-- The loop goes on from where its first rounds lead. -/
theorem decodeLoop_rounds {n : Nat} {st st' : DecState σ} (h : rounds port n st = some st')
    (fuel : Nat) : decodeLoop port (n + fuel) st = decodeLoop port fuel st' := by
  induction n generalizing st with
  | zero => rw [Nat.zero_add, Option.some.inj h]
  | succ n ih =>
    obtain ⟨st₁, hd, h₁⟩ := rounds_succ h
    rw [Nat.add_right_comm, decodeLoop, hd]
    exact ih h₁

/-- **The loop runs the codes of its input**: every whole code of the settled bytes, in order, as
long as what they write fits. -/
theorem rounds_codes {st : DecState σ} {l : List UInt8} (hst : Reads law st l)
    {cs : List Code} {res : List Bool} (hc : codes (pending st.rd l) = (cs, res))
    (hfit : law.Fits (law.written st.io).length (runCodes id cs st.ring).1.length) :
    ∃ st' l', rounds port cs.length st = some st' ∧
      Reads law st' l' ∧ pending st'.rd l' = res ∧ st'.ring = (runCodes id cs st.ring).2 ∧
      law.written st'.io = law.written st.io ++ (runCodes id cs st.ring).1 := by
  induction cs generalizing st l with
  | nil =>
    cases hn : nextCode (pending st.rd l) with
    | none =>
      rw [codes_none hn] at hc
      exact ⟨st, l, rfl, hst, (Prod.mk.inj hc).2, rfl, (List.append_nil _).symm⟩
    | some p =>
      rw [codes_some (c := p.1) (r := p.2) hn] at hc
      exact absurd (Prod.mk.inj hc).1 (by simp)
  | cons c cs ih =>
    cases hn : nextCode (pending st.rd l) with
    | none =>
      rw [codes_none hn] at hc
      exact absurd (Prod.mk.inj hc).1 (by simp)
    | some p =>
      rw [codes_some (c := p.1) (r := p.2) hn] at hc
      obtain ⟨hcs, hres⟩ := Prod.mk.inj hc
      obtain ⟨rfl, rfl⟩ := List.cons.inj hcs
      rw [runCodes, List.length_append, fits_add] at hfit
      obtain ⟨st₁, l₁, hd, hst₁, hp₁, hring₁, hw₁⟩ := decodeStep_code hst hn hfit.1
      have hlen₁ : (law.written st₁.io).length =
          (law.written st.io).length + (runCode id p.1 st.ring).1.length := by
        rw [hw₁, List.length_append]
      obtain ⟨st₂, l₂, hl, hst₂, hp₂, hring₂, hw₂⟩ := ih hst₁
        (by rw [hp₁, ← hres]) (by rw [hlen₁, hring₁]; exact hfit.2)
      refine ⟨st₂, l₂, ?_, hst₂, hp₂, ?_, ?_⟩
      · rw [List.length_cons, rounds, hd]
        exact hl
      · rw [hring₂, hring₁, runCodes]
      · rw [hw₂, hw₁, hring₁, runCodes, List.append_assoc]

/-- Codes that write more than fits stop the loop. -/
theorem decodeLoop_stuck {st : DecState σ} {l : List UInt8} (hst : Reads law st l)
    {cs : List Code} {res : List Bool} (hc : codes (pending st.rd l) = (cs, res))
    (hfit : ¬ law.Fits (law.written st.io).length (runCodes id cs st.ring).1.length) (fuel : Nat) :
    decodeLoop port (cs.length + fuel) st = none := by
  induction cs generalizing st l with
  | nil => exact absurd (fun _ hk => absurd hk (Nat.not_lt_zero _)) hfit
  | cons c cs ih =>
    cases hn : nextCode (pending st.rd l) with
    | none =>
      rw [codes_none hn] at hc
      exact absurd (Prod.mk.inj hc).1 (by simp)
    | some p =>
      rw [codes_some (c := p.1) (r := p.2) hn] at hc
      obtain ⟨hcs, hres⟩ := Prod.mk.inj hc
      obtain ⟨rfl, rfl⟩ := List.cons.inj hcs
      rw [runCodes, List.length_append, fits_add, not_and_or] at hfit
      rw [List.length_cons, Nat.add_right_comm, decodeLoop]
      by_cases hfit₁ : law.Fits (law.written st.io).length (runCode id p.1 st.ring).1.length
      · obtain ⟨st₁, l₁, hd, hst₁, hp₁, hring₁, hw₁⟩ := decodeStep_code hst hn hfit₁
        have hlen₁ : (law.written st₁.io).length =
            (law.written st.io).length + (runCode id p.1 st.ring).1.length := by
          rw [hw₁, List.length_append]
        rw [hd]
        exact ih hst₁ (by rw [hp₁, ← hres])
          (by rw [hlen₁, hring₁]; exact hfit.resolve_left (not_not_intro hfit₁))
      · rw [decodeStep_stuck hst hn hfit₁]
        rfl

/-- A relation between a state and what writing makes of it. -/
structure Port.Holds (port : Port σ) (R : σ → σ → Prop) : Prop where
  refl : ∀ s, R s s
  trans : ∀ {s₁ s₂ s₃}, R s₁ s₂ → R s₂ s₃ → R s₁ s₃
  write : ∀ {c s s'}, port.writeByte c s = some s' → R s s'

section Holds

variable {R : σ → σ → Prop} (hR : port.Holds R)

include hR

theorem emit_holds {c : UInt8} {st st' : DecState σ} (h : emit port c st = some st') :
    R st.io st'.io := by
  obtain ⟨io, hw, h⟩ := Option.bind_eq_some_iff.mp h
  exact Option.some.inj h ▸ hR.write hw

theorem copyLoop_holds (i : Nat) : ∀ {n k : Nat} {st st' : DecState σ},
    copyLoop port i n k st = some st' → R st.io st'.io
  | 0, _, _, _, h => Option.some.inj h ▸ hR.refl _
  | n + 1, k, st, st', h => by
    obtain ⟨st₁, he, hc⟩ := Option.bind_eq_some_iff.mp h
    exact hR.trans (emit_holds hR he) (copyLoop_holds i hc)

theorem execCode_holds {c : Code} {st st' : DecState σ} (h : execCode port c st = some st') :
    R st.io st'.io := by
  cases c with
  | lit c => exact emit_holds hR h
  | copy i j => exact copyLoop_holds hR i h

variable (hnext : ∀ s, R s (port.next s).2)

include hnext

theorem getbit_holds (n : Nat) (st : DecState σ) : R st.io (getbit port n st).2.io :=
  fetch_holds port.toSource hR.refl hR.trans hnext

/-- One round, with what reading does as well. -/
theorem decodeStep_holds {st st' : DecState σ} {more : Bool}
    (h : decodeStep port st = some (more, st')) : R st.io st'.io := by
  have h₁ := getbit_holds hR hnext 1 st
  unfold decodeStep at h
  generalize getbit port 1 st = g₁ at h h₁
  obtain ⟨_ | c, st₁⟩ := g₁
  · obtain ⟨-, rfl⟩ := Prod.mk.inj (Option.some.inj h)
    exact h₁
  simp only at h h₁
  refine hR.trans h₁ ?_
  split_ifs at h
  · have h₂ := getbit_holds hR hnext 8 st₁
    generalize getbit port 8 st₁ = g₂ at h h₂
    obtain ⟨_ | c, st₂⟩ := g₂
    · obtain ⟨-, rfl⟩ := Prod.mk.inj (Option.some.inj h)
      exact h₂
    · obtain ⟨st₃, he, hst⟩ := Option.map_eq_some_iff.mp h
      obtain ⟨-, rfl⟩ := Prod.mk.inj hst
      exact hR.trans h₂ (emit_holds hR he)
  · have h₂ := getbit_holds hR hnext EI st₁
    generalize getbit port EI st₁ = g₂ at h h₂
    obtain ⟨_ | i, st₂⟩ := g₂
    · obtain ⟨-, rfl⟩ := Prod.mk.inj (Option.some.inj h)
      exact h₂
    simp only at h h₂
    have h₃ := getbit_holds hR hnext EJ st₂
    refine hR.trans h₂ ?_
    generalize getbit port EJ st₂ = g₃ at h h₃
    obtain ⟨_ | j, st₃⟩ := g₃
    · obtain ⟨-, rfl⟩ := Prod.mk.inj (Option.some.inj h)
      exact h₃
    · obtain ⟨st₄, he, hst⟩ := Option.map_eq_some_iff.mp h
      obtain ⟨-, rfl⟩ := Prod.mk.inj hst
      exact hR.trans h₃ (copyLoop_holds hR i he)

theorem rounds_holds : ∀ {n : Nat} {st st' : DecState σ},
    rounds port n st = some st' → R st.io st'.io
  | 0, _, _, h => Option.some.inj h ▸ hR.refl _
  | n + 1, st, st', h => by
    obtain ⟨st₁, hd, h₁⟩ := rounds_succ h
    exact hR.trans (decodeStep_holds hR hnext hd) (rounds_holds h₁)

theorem decodeLoop_holds : ∀ {fuel : Nat} {st st' : DecState σ},
    decodeLoop port fuel st = some st' → R st.io st'.io
  | 0, _, _, h => absurd h (by simp [decodeLoop])
  | fuel + 1, st, st', h => by
    obtain ⟨⟨more, st₁⟩, hd, h⟩ := Option.bind_eq_some_iff.mp h
    refine hR.trans (decodeStep_holds hR hnext hd) ?_
    cases more with
    | false => exact Option.some.inj h ▸ hR.refl _
    | true => exact decodeLoop_holds h

end Holds

/-- Whatever is written stays written. -/
theorem holds_written (law : port.Lawful) :
    port.Holds fun s s' => law.written s <+: law.written s' where
  refl _ := List.prefix_rfl
  trans := List.IsPrefix.trans
  write {c s s'} h := by
    by_cases hroom : law.room (law.written s).length
    · obtain ⟨s₁, hw, happ, -⟩ := law.write_some c s hroom
      rw [hw] at h
      rw [← Option.some.inj h, happ]
      exact List.prefix_append _ _
    · rw [law.write_none c s hroom] at h
      exact absurd h (by simp)

theorem copyLoop_written (law : port.Lawful) (i : Nat) {n k : Nat} {st st' : DecState σ}
    (h : copyLoop port i n k st = some st') : law.written st.io <+: law.written st'.io :=
  copyLoop_holds (holds_written law) i h

theorem decodeLoop_written (law : port.Lawful) {fuel : Nat} {st st' : DecState σ}
    (h : decodeLoop port fuel st = some st') : law.written st.io <+: law.written st'.io :=
  decodeLoop_holds (holds_written law) (fun s => law.written_next s ▸ List.prefix_rfl) h

end Loop

/-! ## The file decoder -/

/-- A file takes any number of bytes, and its input is settled. -/
def fileLawful : filePort.Lawful where
  written s := s.outfile
  room _ := True
  m := 0
  written_next _ := rfl
  write_some _ _ _ := ⟨_, rfl, rfl, fun _ e hr he => ⟨e, he, hr⟩⟩
  write_none _ _ h := absurd trivial h

/-- The ring a decoder starts with, over what the buffer held before. -/
def startRing (buffer : Buffer) : Ring UInt8 := ⟨fillSpaces buffer, N - F⟩

/-- **`decode` ends on every input**, and writes what the codes of the input say. -/
theorem decode_eq (infile : List UInt8) :
    decode infile = some (runCodes id (codes (bits infile)).1 (startRing fun _ => 0)).1 := by
  have hcur : pending (decodeInit infile).rd infile = bits infile := rfl
  have hst : Reads fileLawful (decodeInit infile) infile :=
    ⟨Or.inl rfl, [], rfl, (List.append_nil _).symm⟩
  obtain ⟨st', l', hl, hst', hp', hring, hw⟩ :=
    rounds_codes hst (show codes (pending (decodeInit infile).rd infile) =
      ((codes (bits infile)).1, (codes (bits infile)).2) by rw [hcur]) fun _ _ => trivial
  obtain ⟨hwf', e, he, hr⟩ := hst'
  rw [List.length_eq_zero_iff.mp he, List.append_nil] at hr
  obtain ⟨rd₂, io₂, hd, -, -, hw₂⟩ := decodeStep_eof fileLawful hwf'
    (by rw [hr, hp']; exact nextCode_residual _)
  have hfuel : bitsLeft filePort (decodeInit infile) + 1 =
      (codes (bits infile)).1.length + ((bits infile).length - (codes (bits infile)).1.length) + 1 := by
    have := codes_length_le (bits infile)
    show (pending (decodeInit infile).rd infile).length + 1 = _
    rw [hcur]
    omega
  unfold decode
  simp only [hfuel]
  rw [Nat.add_assoc, decodeLoop_rounds hl, decodeLoop, hd]
  simp only [Option.bind_eq_bind, Option.bind_some, Bool.false_eq_true, if_false]
  exact congrArg some (hw₂.trans hw)

end Quals2017.Reeses.Lzss
