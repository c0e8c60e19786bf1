import Quals2017.Reeses.Lzss.Guest
import Quals2017.Reeses.Lzss.RoundTrip

/-!
# When the guest's output fits (`reeses_revenge/mips_build/test_lzss.c:11-28, 102-117, 286-330`)

`DoDecompress` has no test of `outBytePos`, and `writeByte` has none either. A match takes 19 bits
of the input and writes up to 33 bytes, so 16384 bytes of input can say up to 227634 bytes of output
for the 98304 of `uncompressBuf`.

`readByte` delivers the byte behind the input as well (`inBytePos > maxInBytePos`), so the codes
that count are those of `data ++ [behind]`. The byte behind is what `compressBuf` held there before,
and for an input that fills `compressBuf` it is the first byte the request itself has written.

* `codes_append`: the codes of a bit string stay when bits are added behind it.
* `rounds_behind`: the byte the loop finds behind the input.
* `Reachable`: the states between requests. `DoCompress` may leave any window and any buffers, but
  does not touch the statics of `getbit`; `reachable_mask` is the invariant of these.
* **`serve_inside_iff`**: a request writes inside `uncompressBuf` exactly when its codes add up to
  at most 98304 bytes.
-/

namespace Quals2017.Reeses.Lzss

open Quals2017.Lib.BitStream Quals2017.Lib.Stretch

/-- The number of bytes the codes of a bit string write. -/
def outputSize (bs : List Bool) : Nat := ((codes bs).1.map Code.size).sum

/-! ## Bits added behind -/

/-- A code is still the first one when bits are added. -/
theorem nextCode_append {bs r : List Bool} {c : Code} (h : nextCode bs = some (c, r))
    (t : List Bool) : nextCode (bs ++ t) = some (c, r ++ t) := by
  unfold nextCode at h
  split at h
  · exact absurd h (by simp)
  · rename_i bs
    split_ifs at h with hlen
    obtain ⟨rfl, rfl⟩ := Prod.mk.inj (Option.some.inj h)
    rw [List.cons_append, nextCode, if_pos (by rw [List.length_append]; omega),
      List.take_append_of_le_length hlen, List.drop_append_of_le_length hlen]
  · rename_i bs
    split_ifs at h with hlen
    obtain ⟨rfl, rfl⟩ := Prod.mk.inj (Option.some.inj h)
    have hEI : EI ≤ bs.length := by omega
    have hEJ : EJ ≤ (bs.drop EI).length := by
      rw [List.length_drop]
      omega
    rw [List.cons_append, nextCode, if_pos (by rw [List.length_append]; omega),
      List.take_append_of_le_length hEI, List.drop_append_of_le_length hEI,
      List.take_append_of_le_length hEJ, List.drop_append_of_le_length hlen]

/-- **The codes stay** when bits are added, and the bits left over begin the next ones. -/
theorem codes_append (bs t : List Bool) :
    codes (bs ++ t) =
      ((codes bs).1 ++ (codes ((codes bs).2 ++ t)).1, (codes ((codes bs).2 ++ t)).2) := by
  cases h : nextCode bs with
  | none => rw [codes_none h, List.nil_append]
  | some p =>
    rw [codes_some (nextCode_append (c := p.1) (r := p.2) h t), codes_some (c := p.1) (r := p.2) h,
      codes_append p.2 t, List.cons_append]
termination_by bs.length
decreasing_by exact nextCode_length (c := p.1) (r := p.2) h

/-- The shortest code has nine bits. -/
theorem nextCode_short {bs : List Bool} (h : bs.length ≤ 8) : nextCode bs = none := by
  match bs with
  | [] => rfl
  | true :: bs =>
    rw [List.length_cons] at h
    rw [nextCode, if_neg (by omega)]
  | false :: bs =>
    rw [List.length_cons] at h
    rw [nextCode, if_neg (by unfold EI EJ; omega)]

/-- The byte behind the input ends at most one code, and fewer than eight of its bits are left. -/
theorem nextCode_field_rest {bs r : List Bool} {c : Code} {b : Nat} (h : nextCode bs = none)
    (hf : nextCode (bs ++ field 8 b) = some (c, r)) : r.length ≤ 7 := by
  match bs with
  | [] =>
    rw [List.nil_append, nextCode_short (by rw [field_length])] at hf
    exact absurd hf (by simp)
  | true :: bs =>
    rw [nextCode] at h
    split_ifs at h with hlen
    rw [List.cons_append, nextCode] at hf
    split_ifs at hf with hlen'
    rw [← (Prod.mk.inj (Option.some.inj hf)).2, List.length_drop, List.length_append, field_length]
    omega
  | false :: bs =>
    rw [nextCode] at h
    split_ifs at h with hlen
    rw [List.cons_append, nextCode] at hf
    split_ifs at hf with hlen'
    rw [← (Prod.mk.inj (Option.some.inj hf)).2, List.length_drop, List.length_append, field_length]
    omega

/-- Nineteen bits hold a code. -/
theorem codes_ne_nil {bs : List Bool} (h : 19 ≤ bs.length) : (codes bs).1 ≠ [] := by
  match bs with
  | [] => exact absurd h (by simp)
  | true :: bs =>
    rw [List.length_cons] at h
    rw [codes_some (by rw [nextCode, if_pos (by omega)])]
    exact List.cons_ne_nil _ _
  | false :: bs =>
    rw [List.length_cons] at h
    rw [codes_some (by rw [nextCode, if_pos (by unfold EI EJ; omega)])]
    exact List.cons_ne_nil _ _

theorem outputSize_behind_none {bs : List Bool} {b : Nat}
    (h : nextCode ((codes bs).2 ++ field 8 b) = none) :
    outputSize (bs ++ field 8 b) = outputSize bs := by
  rw [outputSize, codes_append, codes_none h, List.append_nil, outputSize]

theorem outputSize_behind_some {bs r : List Bool} {c : Code} {b : Nat}
    (h : nextCode ((codes bs).2 ++ field 8 b) = some (c, r)) :
    outputSize (bs ++ field 8 b) = outputSize bs + c.size := by
  have hr := nextCode_field_rest (nextCode_residual bs) h
  have hshort : nextCode r = none := nextCode_short (by omega)
  rw [outputSize, codes_append, codes_some h, codes_none hshort, List.map_append, List.sum_append,
    outputSize]
  rfl

/-! ## The byte behind the input -/

/-- The first byte a code writes, when it is the first of a request. -/
def firstByte (buffer : Buffer) : Code → UInt8
  | .lit c => UInt8.ofNat c
  | .copy i _ => fillSpaces buffer (i &&& (N - 1))

/-- The byte `readByte` delivers behind the input: what `compressBuf` holds there, or the first byte
of `uncompressBuf` when the input fills `compressBuf`. -/
def behind (g : Guest) (x : Request) : UInt8 :=
  if x.data.length < maxCompressbufSize then g.info.compressBuf x.data.length
  else
    match (codes (bits x.data)).1 with
    | [] => g.info.uncompressBuf 0
    | c :: _ => firstByte g.buffer c

theorem runCodes_head (buffer : Buffer) (c : Code) (cs : List Code) :
    (runCodes id (c :: cs) (startRing buffer)).1.head? = some (firstByte buffer c) := by
  cases c <;> rfl

/-- The input is never written. -/
theorem holds_input : guestPort.Holds fun s s' =>
    s'.maxInBytePos = s.maxInBytePos ∧ s'.compressBuf = s.compressBuf where
  refl _ := ⟨rfl, rfl⟩
  trans h₁ h₂ := ⟨h₂.1.trans h₁.1, h₂.2.trans h₁.2⟩
  write {c s s'} h := by
    have h' : CompressInfo.writeByte c s = some s' := h
    unfold CompressInfo.writeByte at h'
    split_ifs at h'
    rw [← Option.some.inj h']
    exact ⟨rfl, rfl⟩

/-- A write does not move the place of the next read. -/
theorem holds_rest_length : guestPort.Holds fun s s' => s'.rest.length = s.rest.length where
  refl _ := rfl
  trans h₁ h₂ := h₂.trans h₁
  write {c s s'} h := by
    have h' : CompressInfo.writeByte c s = some s' := h
    unfold CompressInfo.writeByte at h'
    split_ifs at h'
    rw [← Option.some.inj h', CompressInfo.rest, CompressInfo.rest, stretch_length, stretch_length]
    rfl

theorem readByte_input (s : CompressInfo) : s.readByte.2.maxInBytePos = s.maxInBytePos ∧
    s.readByte.2.compressBuf = s.compressBuf := by
  unfold CompressInfo.readByte
  split_ifs <;> exact ⟨rfl, rfl⟩

/-- The last byte still to be read lies right behind the input. -/
theorem rest_last {s : CompressInfo} {l : List UInt8} {b : UInt8} (h : s.rest = l ++ [b]) :
    b = s.mem s.maxInBytePos := by
  have hlen := congrArg List.length h
  rw [CompressInfo.rest, stretch_length, List.length_append, List.length_singleton] at hlen
  rw [CompressInfo.rest, hlen, stretch_add] at h
  have hb := (List.append_inj h (stretch_length _ _ _)).2
  have hpos : s.inBytePos + l.length = s.maxInBytePos := by omega
  rw [hpos] at hb
  exact (List.cons.inj hb).1.symm

/-- **The byte behind the input** that the loop finds once it has run the codes of the input. -/
theorem rounds_behind {g : Guest} {x : Request} {n : Nat} {st : DecState CompressInfo}
    (h : rounds guestPort n (serveInit g x) = some st) {l : List UInt8} {b : UInt8}
    (hr : guestPort.rest st.io = l ++ [b]) (hw : guestLawful.written st.io = codesOut g x) :
    b = behind g x := by
  have hlen := x.len_le
  obtain ⟨hmax, hbuf⟩ := rounds_holds holds_input readByte_input h
  have hmax' : st.io.maxInBytePos = x.data.length := hmax
  have hbuf' : st.io.compressBuf = overlay g.info.compressBuf 0 x.data := hbuf
  rw [rest_last hr, CompressInfo.mem, hmax', behind]
  split_ifs with hfull
  · rw [hbuf', overlay_above _ _ _ (by omega)]
  · -- The codes of a full input write at least one byte, and the first stays.
    have hne : (codes (bits x.data)).1 ≠ [] := codes_ne_nil (by
      rw [bits_length]
      unfold maxCompressbufSize at hfull
      omega)
    obtain ⟨c, cs, hcs⟩ := List.exists_cons_of_ne_nil hne
    have hhead : (stretch st.io.uncompressBuf 0 st.io.outBytePos).head? =
        some (firstByte g.buffer c) := by
      rw [← runCodes_head g.buffer c cs, ← hcs]
      exact congrArg List.head? hw
    rw [hcs, show x.data.length - maxCompressbufSize = 0 by omega]
    cases hout : st.io.outBytePos with
    | zero =>
      rw [hout] at hhead
      exact absurd hhead (by simp [stretch])
    | succ n =>
      rw [hout] at hhead
      exact Option.some.inj hhead

/-! ## One request -/

theorem guest_fits_iff {len n : Nat} (hn : 0 < n) :
    guestLawful.Fits len n ↔ len + n ≤ maxUncompressbufSize := by
  constructor
  · intro h
    have : len + (n - 1) < maxUncompressbufSize := h (n - 1) (by omega)
    omega
  · intro h k hk
    show len + k < maxUncompressbufSize
    omega

theorem Code.size_pos (c : Code) : 0 < c.size := by
  cases c with
  | lit c => exact Nat.zero_lt_one
  | copy i j => exact Nat.succ_pos _

/-- The byte behind the input completes a code: it is run when it fits, and then the loop ends. -/
theorem decodeLoop_behind {st : DecState CompressInfo} {l : List UInt8} (hwf : st.rd.WF)
    (hr : guestPort.rest st.io = l) {c : Code} {r : List Bool} (hr7 : r.length ≤ 7)
    (hn : nextCode (pending st.rd l) = some (c, r)) (fuel : Nat) :
    if (guestLawful.written st.io).length + c.size ≤ maxUncompressbufSize then
      ∃ st', decodeLoop guestPort (fuel + 2) st = some st' ∧ st'.rd.mask = 0
    else decodeLoop guestPort (fuel + 2) st = none := by
  obtain ⟨rd', io', l', hwf', hr', hp', hw', hd⟩ :=
    decodeStep_reads guestLawful hwf (by rw [hr, List.append_nil]) hn
  -- A whole byte unread would be eight bits left over.
  have hl' : l' = [] := by
    have hlen := congrArg List.length hp'
    rw [pending, List.length_append, bits_length] at hlen
    exact List.length_eq_zero_iff.mp (by omega)
  rw [hl', List.append_nil] at hr'
  have hsize : (runCode id c st.ring).1.length = c.size := runCode_length id c st.ring
  have hfits := @guest_fits_iff (guestLawful.written st.io).length _ c.size_pos
  rw [decodeLoop, hd]
  split_ifs with hfit
  · obtain ⟨io₂, hx, -⟩ := @execCode_some _ _ guestLawful c ⟨rd', st.ring, io'⟩
      (by rw [hw', hsize]; exact hfits.mpr hfit)
    have hrest : guestPort.rest io₂ = [] := by
      have := execCode_holds holds_rest_length hx
      exact List.length_eq_zero_iff.mp (this.trans (congrArg List.length hr'))
    have hend : nextCode (pending rd' (guestPort.rest io₂)) = none := by
      rw [hrest, ← hl', hp']
      exact nextCode_short (by omega)
    obtain ⟨rd₃, io₃, hd₃, hm₃, -, -⟩ :=
      @decodeStep_eof _ _ guestLawful ⟨rd', (runCode id c st.ring).2, io₂⟩ hwf' hend
    refine ⟨⟨rd₃, (runCode id c st.ring).2, io₃⟩, ?_, hm₃⟩
    rw [hx]
    simp only [Option.map_some, Option.bind_eq_bind, Option.bind_some, if_true]
    rw [decodeLoop, hd₃]
    rfl
  · have hx := @execCode_none _ _ guestLawful c ⟨rd', st.ring, io'⟩
      (by rw [hw', hsize]; exact fun h => hfit (hfits.mp h))
    rw [hx]
    rfl

theorem outputSize_append_le (bs t : List Bool) : outputSize bs ≤ outputSize (bs ++ t) := by
  rw [outputSize, outputSize, codes_append, List.map_append, List.sum_append]
  exact Nat.le_add_right _ _

/-- **One request**: answered, with the statics of `getbit` at a byte boundary, when the codes fit,
and stuck when they do not. -/
theorem serve_cases {g : Guest} (hg : g.rd.mask = 0) (x : Request) :
    if outputSize (bits (x.data ++ [behind g x])) ≤ maxUncompressbufSize then
      ∃ out g', serve g x = some (out, g') ∧ g'.rd.mask = 0
    else serve g x = none := by
  have hbits : bits (x.data ++ [behind g x]) = bits x.data ++ field 8 (behind g x).toNat := by
    rw [bits_append, bits_cons, bits_nil, List.append_nil]
  by_cases hfit : outputSize (bits x.data) ≤ maxUncompressbufSize
  · obtain ⟨st, l, b, fuel, hl, hwf, hr, hp, hw, hs⟩ := serve_codes hg hfit
    obtain rfl := rounds_behind hl hr hw
    have hlen : (guestLawful.written st.io).length = outputSize (bits x.data) := by
      rw [hw, codesOut, runCodes_length, outputSize]
    rw [hs, hbits]
    cases hn : nextCode (pending st.rd (l ++ [behind g x])) with
    | none =>
      obtain ⟨rd, io, hd, hm, -, -⟩ := decodeStep_eof guestLawful hwf (by rw [hr, hn])
      rw [outputSize_behind_none (hp ▸ hn), if_pos hfit, decodeLoop, hd]
      exact ⟨_, _, rfl, hm⟩
    | some p =>
      obtain ⟨c, r⟩ := p
      have hr7 := nextCode_field_rest (nextCode_residual (bits x.data)) (hp ▸ hn)
      have hloop := decodeLoop_behind hwf hr hr7 hn fuel
      rw [outputSize_behind_some (hp ▸ hn), ← hlen]
      split_ifs at hloop ⊢ with hfit'
      · obtain ⟨st', hd, hm⟩ := hloop
        rw [hd]
        exact ⟨_, _, rfl, hm⟩
      · rw [hloop, Option.map_none]
  · have hle := outputSize_append_le (bits x.data) (field 8 (behind g x).toNat)
    rw [hbits, if_neg (by omega)]
    exact serve_stuck hg hfit

/-! ## The states between requests -/

/-- The states `main` reads a request in. `DoCompress` leaves the statics of `getbit` alone; the
window and the buffers are taken to be anything after it. -/
inductive Reachable : Guest → Prop
  | boot : Reachable boot
  | decompress {g g' : Guest} {x : Request} {out : List UInt8} (h : Reachable g)
      (hs : serve g x = some (out, g')) : Reachable g'
  | compress {g : Guest} (buffer : Buffer) (info : CompressInfo) (h : Reachable g) :
      Reachable ⟨g.rd, buffer, info⟩

/-- Between requests no bit of a byte is left over. -/
theorem reachable_mask {g : Guest} (h : Reachable g) : g.rd.mask = 0 := by
  induction h with
  | boot => rfl
  | decompress h hs ih =>
    rename_i x out
    have hcases := serve_cases ih x
    split_ifs at hcases with hfit
    · obtain ⟨out', g₁, hs₁, hm⟩ := hcases
      rw [hs] at hs₁
      rw [(Prod.mk.inj (Option.some.inj hs₁)).2]
      exact hm
    · rw [hs] at hcases
      exact absurd hcases (by simp)
  | compress buffer info h ih => exact ih

/-- **A request writes inside `uncompressBuf`**, in whatever state it meets, exactly when its codes,
with the one the byte behind it may complete, add up to at most 98304 bytes. -/
theorem serve_inside_iff {g : Guest} (h : Reachable g) (x : Request) :
    (∃ out g', serve g x = some (out, g')) ↔
      outputSize (bits (x.data ++ [behind g x])) ≤ maxUncompressbufSize := by
  have hcases := serve_cases (reachable_mask h) x
  constructor
  · rintro ⟨out, g', hs⟩
    by_contra hfit
    rw [if_neg hfit, hs] at hcases
    exact absurd hcases (by simp)
  · intro hfit
    rw [if_pos hfit] at hcases
    obtain ⟨out, g', hs, -⟩ := hcases
    exact ⟨out, g', hs⟩

/-- The one byte of `[0xFF]` and the zero behind it say one byte of output. -/
theorem serve_inside_iff_ff : ∃ out g', serve boot requestFF = some (out, g') :=
  (serve_inside_iff Reachable.boot requestFF).mpr (by
    have hbits : bits (requestFF.data ++ [behind boot requestFF]) =
        codeBits (.lit 254) ++ List.replicate 7 false := by decide
    have hcodes := @codes_codeBits [.lit 254]
      (fun c hc => by rw [List.mem_singleton.mp hc, Code.WF]; decide) (List.replicate 7 false) rfl
    rw [List.flatMap_singleton] at hcodes
    rw [hbits, outputSize, hcodes]
    decide)

/-! ## A request that does not fit -/

/-- Eight matches of 33 bytes, in 19 bytes. -/
def eightMatches : List UInt8 :=
  [0, 3, 224, 0, 124, 0, 15, 128, 1, 240, 0, 62, 0, 7, 192, 0, 248, 0, 31]

theorem bits_eightMatches : bits eightMatches =
    (List.replicate 8 (Code.copy 0 31)).flatMap codeBits := by decide

theorem bits_matches (n : Nat) : bits (List.replicate n eightMatches).flatten =
    (List.replicate (8 * n) (Code.copy 0 31)).flatMap codeBits := by
  induction n with
  | zero => rfl
  | succ n ih =>
    rw [List.replicate_succ, List.flatten_cons, bits_append, bits_eightMatches, ih,
      ← List.flatMap_append, List.replicate_append_replicate, Nat.mul_succ, Nat.add_comm]

theorem outputSize_matches (n : Nat) :
    outputSize (bits (List.replicate n eightMatches).flatten) = 264 * n := by
  have hwf : ∀ c ∈ List.replicate (8 * n) (Code.copy 0 31), c.WF := fun c hc => by
    rw [(List.mem_replicate.mp hc).2]
    exact ⟨by decide, by decide⟩
  have hcodes := @codes_codeBits _ hwf [] rfl
  rw [List.append_nil, ← bits_matches] at hcodes
  rw [outputSize, hcodes, List.map_replicate, List.sum_replicate_nat]
  show 8 * n * 33 = 264 * n
  omega

/-- 373 times eight matches: 7087 bytes of input. -/
def requestMatches : Request where
  data := (List.replicate 373 eightMatches).flatten
  pos := by decide +kernel
  len_le := by decide +kernel

/-- The 98472 bytes of the request do not fit: the first request of the service already writes
behind `uncompressBuf`. -/
theorem serve_matches :
    ¬ ∀ g, Reachable g → ∀ x : Request, ∃ out g', serve g x = some (out, g') := by
  intro h
  obtain ⟨out, g', hs⟩ := h boot Reachable.boot requestMatches
  have hstuck : serve boot requestMatches = none := by
    refine serve_stuck rfl ?_
    show ¬ outputSize (bits (List.replicate 373 eightMatches).flatten) ≤ maxUncompressbufSize
    rw [outputSize_matches]
    decide
  rw [hs] at hstuck
  exact absurd hstuck (by simp)

end Quals2017.Reeses.Lzss
