import Quals2017.Lib.RingWindow
import Quals2017.Lib.Stretch
import Quals2017.Reeses.Lzss.Codes

/-!
# `decode` undoes `encode`

`encode` writes the bits of a list of codes. `Inv` relates its state to that list: the codes run
to the text consumed so far, and leave the decoder's ring a window of the encoder's buffer,
cell `i % N` holding `buffer[i]` for the `N - F` places before `r`.

* `search_spec`: the search returns one byte, or a match in the window that agrees with the
  lookahead, of at most `f1` bytes.
* `copyOut_window`: running such a match writes the bytes it stands for, also where the match
  overlaps the place it is copied to.
* `encodeStep_inv` is the step, through `slide_inv` for the move of the buffer, and `encodeLoop_inv`
  the run.
* **`decode_encode`**: every text that is not empty comes back.
-/

namespace Quals2017.Reeses.Lzss

open Quals2017.Lib.BitStream Quals2017.Lib.RingWindow Quals2017.Lib.Stretch

/-! ## Codes as bits -/

/-- The fields of a code are in range. -/
def Code.WF : Code → Prop
  | .lit c => c < 2 ^ 8
  | .copy i j => i < 2 ^ EI ∧ j < 2 ^ EJ

/-- The bits of a code. -/
def codeBits : Code → List Bool
  | .lit c => true :: field 8 c
  | .copy i j => false :: (field EI i ++ field EJ j)

/-- **A code reads back** under any bits behind it. -/
theorem nextCode_codeBits {c : Code} (h : c.WF) (bs : List Bool) :
    nextCode (codeBits c ++ bs) = some (c, bs) := by
  cases c with
  | lit c =>
    rw [codeBits, List.cons_append, nextCode, if_pos (by simp)]
    rw [List.take_left' (field_length 8 c), List.drop_left' (field_length 8 c),
      spell_field_of_lt h]
  | copy i j =>
    have hdrop : (field EI i ++ field EJ j).length = EI + EJ := by simp
    rw [codeBits, List.cons_append, nextCode, if_pos (by simp)]
    rw [List.drop_left' hdrop, List.append_assoc, List.take_left' (field_length EI i),
      List.drop_left' (field_length EI i), List.take_left' (field_length EJ j),
      spell_field_of_lt h.1, spell_field_of_lt h.2]

theorem codes_codeBits {cs : List Code} (h : ∀ c ∈ cs, c.WF) {bs : List Bool}
    (hbs : nextCode bs = none) : codes (cs.flatMap codeBits ++ bs) = (cs, bs) := by
  induction cs with
  | nil => exact codes_none hbs
  | cons c cs ih =>
    have hc := nextCode_codeBits (h c List.mem_cons_self) (cs.flatMap codeBits ++ bs)
    rw [List.flatMap_cons, List.append_assoc, codes_some hc,
      ih fun d hd => h d (List.mem_cons_of_mem c hd)]

/-- The padding of the last byte holds no code. -/
theorem nextCode_padding {p : Nat} (hp : p < 8) : nextCode (List.replicate p false) = none := by
  cases p with
  | zero => rfl
  | succ p =>
    rw [List.replicate_succ, nextCode, if_neg]
    rw [List.length_replicate]
    unfold EI EJ
    omega

theorem wrote_putMask {st : BitWriter} {bs : List Bool} (h : Wrote st bs) (c n : Nat) :
    Wrote (putMask c n st) (bs ++ field n c) := by
  induction n generalizing st bs with
  | zero => rwa [field, List.append_nil]
  | succ n ih =>
    rw [putMask, field, List.append_cons]
    refine ih ?_
    rw [Nat.and_two_pow]
    cases c.testBit n with
    | false =>
      rw [if_neg (by simp)]
      exact h.put false
    | true =>
      rw [if_pos (by simp)]
      exact h.put true

theorem wrote_output1 {st : BitWriter} {bs : List Bool} (h : Wrote st bs) (c : Nat) :
    Wrote (output1 c st) (bs ++ codeBits (.lit c)) := by
  have := wrote_putMask (h.put true) c 8
  rwa [List.append_assoc] at this

theorem wrote_output2 {st : BitWriter} {bs : List Bool} (h : Wrote st bs) (x y : Nat) :
    Wrote (output2 x y st) (bs ++ codeBits (.copy x y)) := by
  have := wrote_putMask (wrote_putMask (h.put false) x EI) y EJ
  rwa [List.append_assoc, List.append_assoc] at this

/-! ## The search -/

/-- The bytes compared agree. -/
theorem matchLen_spec (buffer : Buffer) (i r : Nat) : ∀ n j,
    j ≤ matchLen buffer i r n j ∧ matchLen buffer i r n j ≤ j + n ∧
      ∀ k, j ≤ k → k < matchLen buffer i r n j → buffer (i + k) = buffer (r + k)
  | 0, j => ⟨le_refl j, le_refl j, fun k h₁ h₂ => absurd h₂ (by rw [matchLen]; omega)⟩
  | n + 1, j => by
    rw [matchLen]
    split_ifs with h
    · exact ⟨le_refl j, by omega, fun k h₁ h₂ => absurd h₂ (by omega)⟩
    · obtain ⟨h₁, h₂, h₃⟩ := matchLen_spec buffer i r n (j + 1)
      refine ⟨by omega, by omega, fun k hk₁ hk₂ => ?_⟩
      by_cases hk : k = j
      · rw [hk]
        exact not_not.mp h
      · exact h₃ k (by omega) hk₂

/-- A match the encoder may write: it starts in the window, and agrees with the lookahead. -/
def IsMatch (buffer : Buffer) (r s f1 : Nat) (best : Nat × Nat) : Prop :=
  s ≤ best.1 ∧ best.1 < r ∧ best.2 ≤ f1 ∧ ∀ k, k < best.2 → buffer (best.1 + k) = buffer (r + k)

/-- What the search keeps: no match yet, or a match. -/
def Found (buffer : Buffer) (r s f1 : Nat) (best : Nat × Nat) : Prop :=
  best.2 = 1 ∨ 1 < best.2 ∧ IsMatch buffer r s f1 best

theorem search_spec {buffer : Buffer} {r s f1 : Nat} (hf1 : 1 ≤ f1) :
    ∀ {n : Nat} {best : Nat × Nat}, s + n ≤ r → Found buffer r s f1 best →
      Found buffer r s f1 (search buffer r s f1 (buffer r) n best)
  | 0, _, _, h => h
  | n + 1, best, hn, h => by
    rw [search]
    split_ifs with hc
    · refine search_spec hf1 (by omega) ?_
      obtain ⟨h₁, h₂, h₃⟩ := matchLen_spec buffer (s + n) r (f1 - 1) 1
      by_cases hj : matchLen buffer (s + n) r (f1 - 1) 1 > best.2
      · rw [if_pos hj]
        have h1 : 1 ≤ best.2 := by
          rcases h with h | h
          · exact h.ge
          · exact h.1.le
        refine Or.inr ⟨by show 1 < matchLen _ _ _ _ _; omega, by show s ≤ s + n; omega,
          by show s + n < r; omega, by show matchLen _ _ _ _ _ ≤ f1; omega, fun k hk => ?_⟩
        by_cases hk0 : k = 0
        · rw [hk0]
          exact hc
        · exact h₃ k (by omega) hk
      · rw [if_neg hj]
        exact h
    · exact search_spec hf1 (by omega) h

/-! ## The ring as a window of the buffer -/

/-- The decoder's ring holds the `N - F` places of the buffer before `r`. -/
def Mirrors (w : Ring UInt8) (buffer : Buffer) (r : Nat) : Prop :=
  w.r = r % N ∧ Window w.buffer N buffer (r - (N - F)) r

theorem and_ring (x : Nat) : x &&& (N - 1) = x % N := Nat.and_two_pow_sub_one_eq_mod x EI

theorem Mirrors.push {w : Ring UInt8} {buffer : Buffer} {r : Nat} (h : Mirrors w buffer r) :
    Mirrors (w.push (buffer r)) buffer (r + 1) := by
  obtain ⟨hr, hw⟩ := h
  have hN := N_eq
  have hF := F_eq
  refine ⟨?_, ?_⟩
  · show (w.r + 1) &&& (N - 1) = (r + 1) % N
    rw [and_ring, hr, Nat.mod_add_mod]
  · show Window (Function.update w.buffer w.r (buffer r)) N buffer _ _
    rw [hr]
    exact (hw.push (by omega)).mono (by omega)

/-- **A match runs to the bytes it stands for.** The bytes it reads are in the ring by then, be it
that the same match has just written them. -/
theorem copyOut_window {buffer : Buffer} {x r y : Nat} (hx : r - (N - F) ≤ x) (hxr : x < r)
    (hm : ∀ k, k < y → buffer (x + k) = buffer (r + k)) :
    ∀ (n k : Nat) (w : Ring UInt8), k + n = y → Mirrors w buffer (r + k) →
      (copyOut (x % N) n k w).1 = stretch buffer (r + k) n ∧
        Mirrors (copyOut (x % N) n k w).2 buffer (r + y)
  | 0, k, w, hk, hw => by
    rw [Nat.add_zero] at hk
    exact ⟨rfl, hk ▸ hw⟩
  | n + 1, k, w, hk, hw => by
    have hc : w.buffer ((x % N + k) &&& (N - 1)) = buffer (r + k) := by
      rw [and_ring, Nat.mod_add_mod, hw.2 (x + k) (by omega) (by omega)]
      exact hm k (by omega)
    obtain ⟨h₁, h₂⟩ := copyOut_window hx hxr hm n (k + 1) _ (by omega) hw.push
    rw [copyOut, hc]
    refine ⟨?_, h₂⟩
    rw [stretch, h₁]
    rfl

/-! ## The encoder's invariant -/

theorem refill_spec : ∀ {infile : List UInt8} {buffer : Buffer} {e : Nat}, e ≤ N * 2 →
    ∀ {infile' buffer' e'}, refill infile buffer e = (infile', buffer', e') →
      e ≤ e' ∧ e' ≤ N * 2 ∧ (infile' = [] ∨ e' = N * 2) ∧ (∀ i, i < e → buffer' i = buffer i) ∧
        stretch buffer' e (e' - e) ++ infile' = infile
  | [], buffer, e, he, infile', buffer', e', h => by
    obtain ⟨rfl, h'⟩ := Prod.mk.inj h
    obtain ⟨rfl, rfl⟩ := Prod.mk.inj h'
    exact ⟨le_refl _, he, Or.inl rfl, fun _ _ => rfl, by rw [Nat.sub_self]; rfl⟩
  | c :: infile, buffer, e, he, infile', buffer', e', h => by
    rw [refill] at h
    split_ifs at h with hlt
    · obtain ⟨h₁, h₂, h₃, h₄, h₅⟩ := refill_spec (by omega) h
      refine ⟨by omega, h₂, h₃, fun i hi => ?_, ?_⟩
      · rw [h₄ i (by omega), Function.update_of_ne (by omega)]
      · have he' : e' - e = (e' - (e + 1)) + 1 := by omega
        rw [he', stretch, h₄ e (by omega), Function.update_self, List.cons_append, h₅]
    · obtain ⟨rfl, h'⟩ := Prod.mk.inj h
      obtain ⟨rfl, rfl⟩ := Prod.mk.inj h'
      exact ⟨le_refl _, he, Or.inr (by omega), fun _ _ => rfl, by rw [Nat.sub_self]; rfl⟩

/-- The buffer of an encoder state: its window and lookahead, and the input behind them. -/
structure Filled (st : EncState) (todo : List UInt8) : Prop where
  window : st.r = st.s + (N - F)
  r_le : st.r ≤ st.bufferend
  end_le : st.bufferend ≤ N * 2
  full : st.infile = [] ∨ st.bufferend = N * 2
  todo_eq : stretch st.buffer st.r (st.bufferend - st.r) ++ st.infile = todo

/-- What holds of the encoder whenever it tests `r < bufferend`: the codes `cs` are written, and
run to `done`; `todo` is still to be encoded. -/
structure Inv (st : EncState) (cs : List Code) (done todo : List UInt8) : Prop where
  filled : Filled st todo
  r_lt : st.r < N * 2 - F
  wf : ∀ c ∈ cs, c.WF
  wrote : Wrote st.out (cs.flatMap codeBits)
  run : (runCodes id cs (startRing fun _ => 0)).1 = done
  mirrors : Mirrors (runCodes id cs (startRing fun _ => 0)).2 st.buffer st.r

theorem slide_out (st : EncState) : (slide st).out = st.out := by
  unfold slide
  split_ifs <;> rfl

/-- Moving the buffer down keeps window and lookahead, and makes room for a lookahead. -/
theorem slide_inv {st : EncState} {todo : List UInt8} (h : Filled st todo) {w : Ring UInt8}
    (hw : Mirrors w st.buffer st.r) :
    Filled (slide st) todo ∧ (slide st).r < N * 2 - F ∧ Mirrors w (slide st).buffer (slide st).r := by
  have hN := N_eq
  have hF := F_eq
  obtain ⟨h₁, h₂, h₃, h₄, h₅⟩ := h
  unfold slide
  split_ifs with hr
  · generalize hre : refill st.infile (fun i => if i < N then st.buffer (i + N) else st.buffer i)
      (st.bufferend - N) = re
    obtain ⟨infile, buffer, bufferend⟩ := re
    simp only [hre]
    obtain ⟨g₁, g₂, g₃, g₄, g₅⟩ := refill_spec (by omega) hre
    have hlow : ∀ i, i < st.bufferend - N → buffer i = st.buffer (i + N) := fun i hi => by
      rw [g₄ i hi, if_pos (by omega)]
    refine ⟨⟨?_, ?_, g₂, g₃, ?_⟩, ?_, ?_, ?_⟩
    · show st.r - N = st.s - N + (N - F)
      omega
    · show st.r - N ≤ bufferend
      omega
    · show stretch buffer (st.r - N) (bufferend - (st.r - N)) ++ infile = todo
      have hsplit : bufferend - (st.r - N) =
          (st.bufferend - st.r) + (bufferend - (st.bufferend - N)) := by omega
      have hsame : stretch buffer (st.r - N) (st.bufferend - st.r) =
          stretch st.buffer st.r (st.bufferend - st.r) := by
        refine stretch_congr fun k hk => ?_
        rw [hlow _ (by omega), show st.r - N + k + N = st.r + k by omega]
      rw [hsplit, stretch_add, hsame, show st.r - N + (st.bufferend - st.r) = st.bufferend - N by omega,
        List.append_assoc, g₅, h₅]
    · show st.r - N < N * 2 - F
      omega
    · show w.r = (st.r - N) % N
      rw [hw.1, ← Nat.mod_eq_sub_mod (by omega)]
    · show Window w.buffer N buffer (st.r - N - (N - F)) (st.r - N)
      have hold : Window w.buffer N st.buffer (st.r - N - (N - F) + N) (st.r - N + N) := by
        rw [show st.r - N + N = st.r by omega]
        exact hw.2.mono (by omega)
      exact hold.shift fun i _ hi => hlow i (by omega)
  · exact ⟨⟨h₁, h₂, h₃, h₄, h₅⟩, by omega, hw⟩

/-- A code that stands for the next `y` bytes of the lookahead carries the invariant on. -/
theorem Inv.step {st : EncState} {cs : List Code} {done todo : List UInt8}
    (h : Inv st cs done todo) {c : Code} {y : Nat} {out : BitWriter} (hc : c.WF)
    (hy : y ≤ st.bufferend - st.r)
    (hout : Wrote out (cs.flatMap codeBits ++ codeBits c))
    (hrun : ∀ w, Mirrors w st.buffer st.r → (runCode id c w).1 = stretch st.buffer st.r y ∧
      Mirrors (runCode id c w).2 st.buffer (st.r + y)) :
    ∃ todo', Inv (slide { st with r := st.r + y, s := st.s + y, out }) (cs ++ [c])
      (done ++ stretch st.buffer st.r y) todo' ∧ todo = stretch st.buffer st.r y ++ todo' := by
  obtain ⟨⟨h₁, h₂, h₃, h₄, h₅⟩, -, hwf, -, hdone, hmir⟩ := h
  obtain ⟨hseg, hmir'⟩ := hrun _ hmir
  have hrest : st.bufferend - st.r = y + (st.bufferend - (st.r + y)) := by omega
  rw [hrest, stretch_add, List.append_assoc] at h₅
  have hfill : Filled { st with r := st.r + y, s := st.s + y, out }
      (stretch st.buffer (st.r + y) (st.bufferend - (st.r + y)) ++ st.infile) := by
    refine ⟨?_, ?_, h₃, h₄, rfl⟩
    · show st.r + y = st.s + y + (N - F)
      omega
    · show st.r + y ≤ st.bufferend
      omega
  obtain ⟨hfill', hr', hmir''⟩ := slide_inv hfill hmir'
  refine ⟨_, ⟨hfill', hr', ?_, ?_, ?_, ?_⟩, h₅.symm⟩
  · intro d hd
    rcases List.mem_append.mp hd with hd | hd
    · exact hwf d hd
    · rwa [List.mem_singleton.mp hd]
  · rw [slide_out, List.flatMap_append, List.flatMap_singleton]
    exact hout
  · rw [runCodes_append, hdone, runCodes, runCodes, List.append_nil, hseg]
  · rw [runCodes_append]
    exact hmir''

theorem runCode_lit {w : Ring UInt8} {buffer : Buffer} {r : Nat} (hw : Mirrors w buffer r) :
    (runCode id (.lit (buffer r).toNat) w).1 = stretch buffer r 1 ∧
      Mirrors (runCode id (.lit (buffer r).toNat) w).2 buffer (r + 1) := by
  simp only [runCode, id, UInt8.ofNat_toNat]
  exact ⟨rfl, hw.push⟩

theorem runCode_copy {w : Ring UInt8} {buffer : Buffer} {x y r s f1 : Nat} (hw : Mirrors w buffer r)
    (hs : r = s + (N - F)) (hy : 2 ≤ y) (hm : IsMatch buffer r s f1 (x, y)) :
    (runCode id (.copy (x &&& (N - 1)) (y - 2)) w).1 = stretch buffer r y ∧
      Mirrors (runCode id (.copy (x &&& (N - 1)) (y - 2)) w).2 buffer (r + y) := by
  obtain ⟨h₁, h₂, -, h₃⟩ := hm
  have hN := N_eq
  have hF := F_eq
  rw [and_ring, runCode, show y - 2 + 2 = y by omega]
  exact copyOut_window (by show r - (N - F) ≤ x; omega) h₂ h₃ y 0 w (Nat.zero_add y) hw

/-- **One round of the encoder** writes one code, and moves the bytes it stands for from `todo` to
`done`. -/
theorem encodeStep_inv {st : EncState} {cs : List Code} {done todo : List UInt8}
    (h : Inv st cs done todo) (hlt : st.r < st.bufferend) :
    ∃ c l todo', Inv (encodeStep st) (cs ++ [c]) (done ++ l) todo' ∧ todo = l ++ todo' ∧ l ≠ [] := by
  have hF := F_eq
  have hwin := h.filled.window
  generalize hf1 : (if F ≤ st.bufferend - st.r then F else st.bufferend - st.r) = f1
  have hf1pos : 1 ≤ f1 := by rw [← hf1]; split_ifs <;> omega
  have hf1le : f1 ≤ st.bufferend - st.r := by rw [← hf1]; split_ifs <;> omega
  have hf1F : f1 ≤ F := by rw [← hf1]; split_ifs <;> omega
  have hfound := search_spec hf1pos (show st.s + (st.r - st.s) ≤ st.r by omega)
    (Or.inl rfl : Found st.buffer st.r st.s f1 (0, 1))
  generalize hs : search st.buffer st.r st.s f1 (st.buffer st.r) (st.r - st.s) (0, 1) = best at hfound
  obtain ⟨x, y⟩ := best
  have hne : ∀ n, 1 ≤ n → stretch st.buffer st.r n ≠ [] := fun n hn he => by
    have := congrArg List.length he
    rw [stretch_length, List.length_nil] at this
    omega
  unfold encodeStep
  simp only [hf1, hs]
  rcases hfound with hy | ⟨hy, hm⟩
  · simp only at hy
    subst hy
    rw [if_pos (show 1 ≤ P from le_refl 1)]
    have hc : (Code.lit (st.buffer st.r).toNat).WF := UInt8.toNat_lt _
    obtain ⟨todo', hinv, htodo⟩ := h.step hc (by omega) (wrote_output1 h.wrote _)
      fun w hw => runCode_lit hw
    exact ⟨_, _, todo', hinv, htodo, hne 1 (le_refl 1)⟩
  · simp only at hy
    rw [if_neg (by unfold P; omega)]
    have hyf : y ≤ f1 := hm.2.2.1
    have hc : (Code.copy (x &&& (N - 1)) (y - 2)).WF := by
      refine ⟨?_, ?_⟩
      · rw [and_ring]
        exact Nat.mod_lt x (Nat.two_pow_pos EI)
      · show y - 2 < 32
        omega
    obtain ⟨todo', hinv, htodo⟩ := h.step hc (by omega) (wrote_output2 h.wrote _ _)
      fun w hw => runCode_copy hw hwin hy hm
    exact ⟨_, _, todo', hinv, htodo, hne y (by omega)⟩

/-- **The encoder's loop ends** with every byte encoded. -/
theorem encodeLoop_inv : ∀ {fuel : Nat} {st : EncState} {cs : List Code} {done todo : List UInt8},
    Inv st cs done todo → todo.length < fuel →
    ∃ st' cs', encodeLoop fuel st = some st' ∧ Inv st' cs' (done ++ todo) [] ∧ st'.infile = []
  | 0, _, _, _, _, _, hfuel => absurd hfuel (Nat.not_lt_zero _)
  | fuel + 1, st, cs, done, todo, h, hfuel => by
    rw [encodeLoop]
    split_ifs with hlt
    · obtain ⟨c, l, todo', hinv, rfl, hne⟩ := encodeStep_inv h hlt
      have hl : 0 < l.length := List.length_pos_iff.mpr hne
      rw [List.length_append] at hfuel
      rw [← List.append_assoc]
      exact encodeLoop_inv hinv (by omega)
    · have hnil : st.infile = [] := by
        rcases h.filled.full with hf | hf
        · exact hf
        · have := h.r_lt
          have := F_eq
          have := N_eq
          omega
      have htodo : todo = [] := by
        rw [← h.filled.todo_eq, hnil, show st.bufferend - st.r = 0 by omega]
        rfl
      subst htodo
      rw [List.append_nil]
      exact ⟨st, cs, rfl, h, hnil⟩

theorem encodeInit_inv (infile : List UInt8) : Inv (encodeInit infile) [] [] infile := by
  have hN := N_eq
  have hF := F_eq
  unfold encodeInit
  generalize hre : refill infile (fillSpaces fun _ => 0) (N - F) = re
  obtain ⟨rest, buffer, bufferend⟩ := re
  obtain ⟨h₁, h₂, h₃, h₄, h₅⟩ := refill_spec (by omega) hre
  refine ⟨⟨?_, h₁, h₂, h₃, h₅⟩, ?_, fun c hc => absurd hc List.not_mem_nil, wrote_empty, rfl, ?_, ?_⟩
  · show N - F = 0 + (N - F)
    omega
  · show N - F < N * 2 - F
    omega
  · show N - F = (N - F) % N
    exact (Nat.mod_eq_of_lt (by omega)).symm
  · intro i _ hi
    have hi' : i < N - F := hi
    show fillSpaces (fun _ => 0) (i % N) = buffer i
    rw [h₄ i hi', Nat.mod_eq_of_lt (by omega)]

/-- **LZSS round trip**: `encode` ends on every text that is not empty, and `decode` gives exactly
the text back. -/
theorem decode_encode {text : List UInt8} (h : text ≠ []) :
    ∃ code, encode text = some code ∧ decode code = some text := by
  obtain ⟨st, cs, hloop, hinv, hnil⟩ :=
    encodeLoop_inv (encodeInit_inv text) (Nat.lt_succ_self text.length)
  have hcount : text.length - st.infile.length ≠ 0 := by
    rw [hnil, List.length_nil, Nat.sub_zero]
    exact (List.length_pos_iff.mpr h).ne'
  obtain ⟨p, hp, hbits⟩ := hinv.wrote.flush
  refine ⟨(flushBitBuffer st.out).out, ?_, ?_⟩
  · unfold encode
    simp only [Option.bind_eq_bind, hloop, Option.bind_some, if_neg hcount]
  · rw [decode_eq]
    show some (runCodes id (codes (bits st.out.flush.out)).1 _).1 = some text
    rw [hbits, codes_codeBits hinv.wf (nextCode_padding hp), hinv.run, List.nil_append]

/-- The text `"aaa"`: a byte, then a match that overlaps itself. -/
theorem decode_encode_aaa :
    ∃ code, encode [97, 97, 97] = some code ∧ decode code = some [97, 97, 97] :=
  decode_encode (by simp)

end Quals2017.Reeses.Lzss
