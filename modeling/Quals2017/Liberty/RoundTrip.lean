import Quals2017.Liberty.Phases

/-!
# Compression and decompression

* `layer3_shrunk`, `layer2_built`, `layer1_phase1`: the layers on what the phases leave.
* `decompress_compress`: **`kernel/decompress.c` undoes `Compress`**, where `Phase2` has not
  replaced its null byte. `compress_loses` is an input where it has.
* `decompress_agree_iff`: **the two decompressors agree** on what `Compress` returns if and only if
  `Phase3` has replaced a pair. `compress_disagree` is an input where it has not.
-/

namespace Quals2017.Liberty

open Quals2017.Lib.Stretch

variable {b b' : Buffers} {key special : Byte} {data start cur out : List Byte}
  {list : List (List Byte)}

/-- The data in `InBuffer`. -/
structure Content (b : Buffers) (l : List Byte) : Prop where
  len : b.dataLen = l.length
  reads : Reads b.inBuf 0 l

/-- `OutBuffer` has the data, too. -/
def Buffers.Synced (b : Buffers) : Prop := ∀ k, k < b.dataLen → b.outBuf k = b.inBuf k

theorem overlay_zero (seq : Nat → Byte) {l : List Byte} {k : Nat} (hk : k < l.length) :
    overlay seq 0 l k = l[k] := by
  have h := overlay_at seq 0 l hk
  rwa [Nat.zero_add] at h

theorem content_of_copyBack (h : b.copyBack out = .ok b') : Content b' out ∧ b'.Synced := by
  unfold Buffers.copyBack at h
  split_ifs at h
  rw [← Except.ok.inj h]
  refine ⟨⟨rfl, reads_overlay b.inBuf 0 out⟩, fun k hk => ?_⟩
  exact (overlay_zero _ hk).trans (overlay_zero _ hk).symm

namespace Content

/-- The first byte of the data. -/
theorem head {a : Byte} {l : List Byte} (h : Content b (a :: l)) : b.inBuf 0 = a :=
  (reads_cons.mp h.reads).1

end Content

/-! ## Layer 3 -/

/-- A round of Layer 3. -/
theorem unpair_eq {lo hi : Byte} (hkey : key ≠ special)
    (h : Content b (key :: lo :: hi :: replacePairs key special lo hi data)) :
    unpair special b = data := by
  obtain ⟨h₀, hr⟩ := reads_cons.mp h.reads
  obtain ⟨h₁, hr⟩ := reads_cons.mp hr
  obtain ⟨h₂, hr⟩ := reads_cons.mp hr
  have hlen := h.len
  simp only [List.length_cons] at hlen
  unfold unpair
  rw [h₀, show b.inBuf 1 = lo from h₁, show b.inBuf 2 = hi from h₂]
  exact unpairs hkey data 3 b.dataLen hr (by omega) (by omega)

/-- Layer 3 comes to the data that `Phase3` began with, if it ends. -/
theorem layer3_of_ok (hs : Shrunk special data out) : ∀ {n : Nat} {b r : Buffers}, Content b out →
    layer3 special n b = .ok r → ∃ k b', Content b' data ∧ layer3 special k b' = .ok r := by
  induction hs with
  | refl data => exact fun hc h => ⟨_, _, hc, h⟩
  | @step data out key lo hi hkey _ _ ih =>
    intro n b r hc h
    obtain ⟨k, b₁, hc₁, h₁⟩ := ih hc h
    cases k with
    | zero => exact nomatch h₁
    | succ k =>
      rw [layer3, if_neg (by rw [hc₁.head]; exact hkey), unpair_eq hkey hc₁] at h₁
      cases hcopy : b₁.copyBack data with
      | error e => exact nomatch hcopy ▸ h₁
      | ok b₂ =>
        rw [hcopy] at h₁
        exact ⟨k, b₂, (content_of_copyBack hcopy).1, h₁⟩

/-- Layer 3 ends where the special key is. -/
theorem layer3_head {l : List Byte} {n : Nat} (hc : Content b (special :: l)) :
    layer3 special (n + 1) b = .ok b :=
  if_pos hc.head

/-- After a round of Layer 3 `OutBuffer` has the data, too. -/
theorem layer3_synced {n : Nat} : ∀ {b r : Buffers}, b.Synced ∨ b.inBuf 0 ≠ special →
    layer3 special n b = .ok r → r.Synced := by
  induction n with
  | zero => exact fun _ h => nomatch h
  | succ n ih =>
    intro b r hb h
    rw [layer3] at h
    by_cases h₀ : b.inBuf 0 = special
    · rw [if_pos h₀] at h
      rw [← Except.ok.inj h]
      exact hb.resolve_right fun hne => hne h₀
    · rw [if_neg h₀] at h
      cases hcopy : b.copyBack (unpair special b) with
      | error e => exact nomatch hcopy ▸ h
      | ok b₁ =>
        rw [hcopy] at h
        exact ih (Or.inl (content_of_copyBack hcopy).2) h

/-! ## Layer 2 -/

/-- `kernel/decompress.c` moves the data. -/
theorem chopKernel_eq {a : Byte} {l : List Byte} (hc : Content b (a :: l)) :
    ∃ b', chopKernel b = .ok b' ∧ Content b' l := by
  have hlen := hc.len
  rw [List.length_cons] at hlen
  have hrest : stretch b.inBuf 1 (b.dataLen - 1) = l := by
    rw [hlen, Nat.add_sub_cancel]
    exact (reads_cons.mp hc.reads).2
  refine ⟨_, if_neg (by omega), ?_⟩
  rw [hrest]
  exact ⟨by simp only [hlen, Nat.add_sub_cancel], reads_overlay b.inBuf 0 l⟩

/-- The data is read. -/
theorem load_eq (junk : Buffers) (special : Byte) (hfit : out.length ≤ bufferSize) :
    ∃ b, load junk (special :: out) = .ok b ∧ Content b out ∧ b.outBuf = junk.outBuf := by
  have hsize : bufferSize = 10000 := rfl
  have hlen : (special :: out).length % 65536 = out.length + 1 := by
    rw [List.length_cons, Nat.mod_eq_of_lt (by omega)]
  unfold load
  simp only
  rw [hlen, if_neg (by omega), Nat.add_sub_cancel, List.tail_cons, List.take_length]
  exact ⟨_, rfl, ⟨rfl, reads_overlay junk.inBuf 0 out⟩, rfl⟩

/-- Layer 1 on what `Phase1` has written. -/
theorem layer1_phase1 {data : Nat → Byte} {len : Nat}
    (hrun : ∀ i, i < len → runAt data len i → i + 4 ≤ len) (hfit : len ≤ bufferSize)
    (hc : Content b (phase1 data len)) : layer1 b = .ok (stretch data 0 len) := by
  have hlen := hc.len
  obtain ⟨h₀, hr⟩ := reads_cons.mp hc.reads
  rw [phase1, List.length_cons] at hlen
  have hout : layer1Loop b.inBuf b.dataLen (b.inBuf 0) b.dataLen 1 = stretch data 0 len := by
    rw [h₀]
    exact layer1Loop_eq hrun hr (by omega) (by omega) (by omega)
  unfold layer1
  simp only
  rw [hout, if_neg (by rw [stretch_length]; omega)]

/-- The runs that `Phase1` finds are inside of its input. -/
def RunsInside (data : Nat → Byte) (len : Nat) : Prop :=
  ∀ i, i < len → runAt data len i → i + 4 ≤ len

/-- From three bytes on they are. -/
theorem runsInside_of_le {data : Nat → Byte} {len : Nat} (hlo : 3 ≤ len) (hhi : len < 2 ^ 32) :
    RunsInside data len := by
  intro i _ hat
  have hlt := hat.1
  rw [show len + (2 ^ 32 - 3) = len - 3 + 2 ^ 32 by omega, Nat.add_mod_right,
    Nat.mod_eq_of_lt (by omega)] at hlt
  omega

/-- The data fits in the buffers, between any two layers. -/
structure Fits (data : Nat → Byte) (len : Nat) : Prop where
  input : len ≤ bufferSize
  first : (phase1 data len).length < bufferSize
  second : ∀ out, phase2 (phase1 data len) = some out → out.length < bufferSize

/-- What `Compress` returns. -/
theorem compress_spec {data : Nat → Byte} {len : Nat} {z : List Byte}
    (hz : compress data len = some z) : ∃ s special out,
      phase2Search (phase1 data len) = some s ∧
      phase2 (phase1 data len) = some (phase2Out (phase2Start (phase1 data len)).1 s) ∧
      special ∉ phase2Out (phase2Start (phase1 data len)).1 s ∧ z = special :: out ∧
      Shrunk special (special :: phase2Out (phase2Start (phase1 data len)).1 s) out := by
  unfold compress at hz
  cases hs : phase2Search (phase1 data len) with
  | none =>
    rw [phase2, hs] at hz
    exact nomatch hz
  | some s =>
    have hp : phase2 (phase1 data len) = some (phase2Out (phase2Start (phase1 data len)).1 s) := by
      rw [phase2, hs]
      rfl
    rw [hp] at hz
    obtain ⟨special, out, hspecial, rfl, hshrunk⟩ := phase3_spec hz (List.cons_ne_nil _ _)
    exact ⟨s, special, out, rfl, hp, hspecial, rfl, hshrunk⟩

theorem Shrunk.length_le (h : Shrunk special data out) : out.length ≤ data.length := by
  induction h with
  | refl data => exact Nat.le_refl _
  | step _ hlt _ ih => exact Nat.le_trans ih (Nat.le_of_lt hlt)

/-- Two runs that read the same. -/
def Alike (b₁ b₂ : Buffers) : Prop := b₁.inBuf = b₂.inBuf ∧ b₁.dataLen = b₂.dataLen

/-- Two results that are the same, but for `OutBuffer`. -/
def AlikeResult : Except Stop Buffers → Except Stop Buffers → Prop
  | .ok b₁, .ok b₂ => Alike b₁ b₂
  | .error e₁, .error e₂ => e₁ = e₂
  | _, _ => False

variable {b₁ b₂ : Buffers}

theorem copyBack_alike (h : Alike b₁ b₂) (out : List Byte) :
    AlikeResult (b₁.copyBack out) (b₂.copyBack out) := by
  unfold Buffers.copyBack
  split_ifs
  · rfl
  · exact ⟨congrArg (overlay · 0 out) h.1, rfl⟩

/-- A step behind two steps that are alike. -/
theorem alike_bind {r₁ r₂ : Except Stop Buffers} {f : Buffers → Except Stop Buffers} :
    AlikeResult r₁ r₂ → (∀ {b₁ b₂}, Alike b₁ b₂ → AlikeResult (f b₁) (f b₂)) →
      AlikeResult (match r₁ with | .error e => .error e | .ok b => f b)
        (match r₂ with | .error e => .error e | .ok b => f b) := by
  intro h hf
  cases r₁ with
  | error e₁ =>
    cases r₂ with
    | error e₂ => exact h
    | ok b₂ => exact h.elim
  | ok b₁ =>
    cases r₂ with
    | error e₂ => exact h.elim
    | ok b₂ => exact hf h

theorem layer3_alike {n : Nat} : ∀ {b₁ b₂ : Buffers}, Alike b₁ b₂ →
    AlikeResult (layer3 special n b₁) (layer3 special n b₂) := by
  induction n with
  | zero => exact fun _ => rfl
  | succ n ih =>
    intro b₁ b₂ h
    rw [layer3, layer3, unpair, unpair, h.1, h.2]
    split_ifs
    · exact h
    · exact alike_bind (copyBack_alike h _) ih

theorem expandAll_alike {entries : List (List Byte)} {n : Nat} : ∀ {b₁ b₂ : Buffers}, Alike b₁ b₂ →
    AlikeResult (expandAll key entries n b₁) (expandAll key entries n b₂) := by
  induction n with
  | zero => exact id
  | succ n ih =>
    intro b₁ b₂ h
    rw [expandAll, expandAll, h.1, h.2]
    exact alike_bind (copyBack_alike h _) ih

theorem layer2_alike {n : Nat} : ∀ {b₁ b₂ : Buffers}, Alike b₁ b₂ →
    AlikeResult (layer2 n b₁) (layer2 n b₂) := by
  induction n with
  | zero => exact fun _ => rfl
  | succ n ih =>
    intro b₁ b₂ h
    have hround : AlikeResult (layer2Round b₁) (layer2Round b₂) := by
      unfold layer2Round
      rw [h.1, h.2]
      cases readEntries b₂.inBuf 256 1 with
      | error e => rfl
      | ok r =>
        simp only
        split_ifs
        · rfl
        · exact alike_bind (copyBack_alike h _) expandAll_alike
    rw [layer2, layer2, h.1]
    split_ifs
    · exact h
    · exact alike_bind hround ih

/-- After a round of Layer 2 `OutBuffer` has the data, too. -/
theorem expandAll_synced {entries : List (List Byte)} {n : Nat} : ∀ {b r : Buffers}, b.Synced →
    expandAll key entries n b = .ok r → r.Synced := by
  induction n with
  | zero =>
    intro b r hb h
    rwa [← Except.ok.inj h]
  | succ n ih =>
    intro b r hb h
    rw [expandAll] at h
    cases hcopy : b.copyBack
      (expandLoop b.inBuf b.dataLen key (entries.getD n []) n b.dataLen 0) with
    | error e => exact nomatch hcopy ▸ h
    | ok b₁ =>
      rw [hcopy] at h
      exact ih (content_of_copyBack hcopy).2 h

theorem layer2Round_synced {r : Buffers} (h : layer2Round b = .ok r) : r.Synced := by
  unfold layer2Round at h
  cases hentries : readEntries b.inBuf 256 1 with
  | error e => exact nomatch hentries ▸ h
  | ok p =>
    rw [hentries] at h
    simp only at h
    by_cases hlen : b.dataLen < p.2
    · rw [if_pos hlen] at h
      exact nomatch h
    · rw [if_neg hlen] at h
      cases hcopy : b.copyBack (stretch b.inBuf p.2 (b.dataLen - p.2)) with
      | error e => exact nomatch hcopy ▸ h
      | ok b₁ =>
        rw [hcopy] at h
        exact expandAll_synced (content_of_copyBack hcopy).2 h

theorem layer2_synced {n : Nat} : ∀ {b r : Buffers}, b.Synced ∨ b.inBuf 0 ≠ 0 →
    layer2 n b = .ok r → r.Synced := by
  induction n with
  | zero => exact fun _ h => nomatch h
  | succ n ih =>
    intro b r hb h
    rw [layer2] at h
    by_cases h₀ : b.inBuf 0 = 0
    · rw [if_pos h₀] at h
      rw [← Except.ok.inj h]
      exact hb.resolve_right fun hne => hne h₀
    · rw [if_neg h₀] at h
      cases hround : layer2Round b with
      | error e => exact nomatch hround ▸ h
      | ok b₁ =>
        rw [hround] at h
        exact ih (Or.inl (layer2Round_synced hround)) h

theorem chopKernel_alike (h : Alike b₁ b₂) : AlikeResult (chopKernel b₁) (chopKernel b₂) := by
  unfold chopKernel
  rw [h.1, h.2]
  split_ifs
  · rfl
  · exact ⟨rfl, rfl⟩

theorem layer1_alike (h : Alike b₁ b₂) : layer1 b₁ = layer1 b₂ := by
  unfold layer1
  rw [h.1, h.2]

/-- `payload-decompress.c` moves the data as `kernel/decompress.c` does, where `OutBuffer` has
it. -/
theorem chopPayload_alike (h : Alike b₁ b₂) (hsync : b₁.Synced) :
    AlikeResult (chopPayload b₁) (chopKernel b₂) := by
  have hrest : stretch b₁.outBuf 1 (b₁.dataLen - 1) = stretch b₂.inBuf 1 (b₂.dataLen - 1) := by
    rw [← h.1, ← h.2]
    exact stretch_congr fun k hk => hsync (1 + k) (by omega)
  unfold chopPayload chopKernel
  rw [hrest, h.1, h.2]
  split_ifs
  · rfl
  · exact ⟨rfl, rfl⟩

/-- The rest of two programs, behind two steps that are alike. -/
theorem bind_eq_bind {r₁ r₂ : Except Stop Buffers} {f g : Buffers → Except Stop (List Byte)}
    (h : AlikeResult r₁ r₂)
    (hfg : ∀ b₁ b₂, r₁ = .ok b₁ → r₂ = .ok b₂ → Alike b₁ b₂ → f b₁ = g b₂) :
    (r₁ >>= f) = (r₂ >>= g) := by
  cases r₁ with
  | error e₁ =>
    cases r₂ with
    | error e₂ => exact congrArg Except.error h
    | ok b₂ => exact h.elim
  | ok b₁ =>
    cases r₂ with
    | error e₂ => exact h.elim
    | ok b₂ => exact hfg b₁ b₂ rfl rfl h

/-- `kernel/decompress.c` does not read what was in `OutBuffer`. -/
theorem kernel_outBuf {fuel : Nat} {junk junk' : Buffers} (hin : junk.inBuf = junk'.inBuf)
    (z : List Byte) : decompressKernel fuel junk z = decompressKernel fuel junk' z := by
  have hload : AlikeResult (load junk z) (load junk' z) := by
    unfold load
    simp only [hin]
    split_ifs
    · rfl
    · exact ⟨rfl, rfl⟩
  exact bind_eq_bind hload fun _ _ _ _ h => bind_eq_bind (layer3_alike h) fun _ _ _ _ h =>
    bind_eq_bind (chopKernel_alike h) fun _ _ _ _ h => bind_eq_bind (layer2_alike h)
      fun _ _ _ _ h => bind_eq_bind (chopKernel_alike h) fun _ _ _ _ h => layer1_alike h

theorem AlikeResult.refl (r : Except Stop Buffers) : AlikeResult r r := by
  cases r with
  | error e => rfl
  | ok b => exact ⟨rfl, rfl⟩

/-- **Where Layer 3 takes a round**, the programs agree. -/
theorem agree_of_round {special : Byte} {out l : List Byte}
    (hout : Shrunk special (special :: key :: l) out) (hhead : ∀ rest, out ≠ special :: rest)
    (hkey : key ≠ 0) (hfit : out.length ≤ bufferSize) (fuel : Nat) (junk : Buffers) :
    decompressPayload fuel junk (special :: out) = decompressKernel fuel junk (special :: out) := by
  obtain ⟨b₀, hload, hc₀, -⟩ := load_eq junk special hfit
  have hne : b₀.inBuf 0 ≠ special := by
    rcases hout.head with rfl | ⟨key', rest, rfl, hkey'⟩
    · exact absurd rfl (hhead _)
    · rwa [hc₀.head]
  refine bind_eq_bind (AlikeResult.refl _) fun b₀' _ h₀ h₀' h => ?_
  have hb₀ : b₀ = b₀' := Except.ok.inj (hload.symm.trans h₀)
  subst hb₀
  refine bind_eq_bind (layer3_alike h) fun r₁ r₂ h₁ h₂ h => ?_
  have hsync₁ : r₁.Synced := layer3_synced (Or.inr hne) h₁
  obtain ⟨k, b', hc', hk⟩ := layer3_of_ok hout hc₀ h₁
  have hc₁ : Content r₁ (special :: key :: l) := by
    cases k with
    | zero => exact nomatch hk
    | succ k =>
      rw [layer3_head hc'] at hk
      rwa [← Except.ok.inj hk]
  refine bind_eq_bind (chopPayload_alike h hsync₁) fun c₁ c₂ hch₁ hch₂ h => ?_
  have hkeyc : c₁.inBuf 0 ≠ 0 := by
    obtain ⟨c₃, hch₃, hc₃⟩ := chopKernel_eq hc₁
    have halike := chopPayload_alike ⟨rfl, rfl⟩ hsync₁
    rw [hch₁, hch₃] at halike
    rw [halike.1, hc₃.head]
    exact hkey
  refine bind_eq_bind (layer2_alike h) fun d₁ d₂ hd₁ hd₂ h => ?_
  have hsync₂ : d₁.Synced := layer2_synced (Or.inr hkeyc) hd₁
  exact bind_eq_bind (chopPayload_alike h hsync₂) fun _ _ _ _ h => layer1_alike h

/-- Layer 1 on bytes that are all the same, and not the key. -/
theorem layer1Loop_same {inBuf : Nat → Byte} {dataLen : Nat} {v : Byte} (hv : v ≠ key) :
    ∀ {n pos : Nat}, (∀ k, pos ≤ k → k < dataLen → inBuf k = v) → dataLen - pos ≤ n →
      layer1Loop inBuf dataLen key n pos = List.replicate (dataLen - pos) v := by
  intro n
  induction n with
  | zero =>
    intro pos _ hn
    rw [Nat.le_zero.mp hn]
    rfl
  | succ n ih =>
    intro pos hsame hn
    rw [layer1Loop]
    by_cases hpos : pos < dataLen
    · have h₀ := hsame pos (Nat.le_refl pos) hpos
      rw [if_pos hpos, if_neg (by rwa [h₀]), h₀,
        ih (fun k hk hlt => hsame k (by omega) hlt) (by omega),
        show dataLen - pos = dataLen - (pos + 1) + 1 by omega, List.replicate_succ]
    · rw [if_neg hpos, Nat.sub_eq_zero_of_le (by omega)]
      rfl

/-- What `payload-decompress.c` finds in `OutBuffer`, and takes for the data. -/
def outJunk (v : Byte) : Buffers := ⟨fun _ => 0, fun i => if i = 1 then 0 else v, 0⟩

theorem chopPayload_junk {v : Byte} (hout : b.outBuf = (outJunk v).outBuf) (hlen : 2 ≤ b.dataLen) :
    ∃ b', chopPayload b = .ok b' ∧ b'.dataLen = b.dataLen - 1 ∧ b'.outBuf = (outJunk v).outBuf ∧
      b'.inBuf 0 = 0 ∧ ∀ k, 1 ≤ k → k < b'.dataLen → b'.inBuf k = v := by
  have hat : ∀ k, k < b.dataLen - 1 →
      overlay b.inBuf 0 (stretch b.outBuf 1 (b.dataLen - 1)) k = b.outBuf (1 + k) := fun k hk => by
    rw [overlay_zero _ (by rwa [stretch_length]), stretch_getElem]
  refine ⟨_, if_neg (by omega), rfl, hout, ?_, fun k hlo hk => ?_⟩
  · refine (hat 0 (by omega)).trans ?_
    rw [hout]
    rfl
  · refine (hat k hk).trans ?_
    rw [hout]
    exact if_neg (by omega)

/-- **Where Layer 3 takes no round**, `payload-decompress.c` writes what was in `OutBuffer`. -/
theorem payload_junk {special v : Byte} {rest : List Byte} (hv : v ≠ 0) (hlen : 3 ≤ rest.length)
    (hfit : rest.length < bufferSize) :
    decompressPayload 1 (outJunk v) (special :: special :: rest) =
      .ok (List.replicate (rest.length - 2) v) := by
  have hfit' : (special :: rest).length ≤ bufferSize := hfit
  obtain ⟨b₀, hload, hc₀, hb₀⟩ := load_eq (outJunk v) special hfit'
  have hdata : b₀.dataLen = rest.length + 1 := hc₀.len
  have h₃ : layer3 special 1 b₀ = .ok b₀ := layer3_head hc₀
  obtain ⟨b₁, hchop₁, hlen₁, hout₁, hzero₁, -⟩ := chopPayload_junk hb₀ (by omega)
  have h₂ : layer2 1 b₁ = .ok b₁ := if_pos hzero₁
  obtain ⟨b₂, hchop₂, hlen₂, -, hzero₂, hsame⟩ := chopPayload_junk hout₁ (by omega)
  have h₁ : layer1 b₂ = .ok (List.replicate (rest.length - 2) v) := by
    unfold layer1
    simp only
    rw [hzero₂, layer1Loop_same hv hsame (Nat.sub_le _ _), if_neg (by
      rw [List.length_replicate]
      omega), hlen₂, hlen₁, hdata]
    rfl
  unfold decompressPayload decompress
  simp only [hload, List.headD_cons, bind, Except.bind, h₃, hchop₁, h₂, hchop₂]
  exact h₁

/-- `Phase2` writes its key, its null byte and the key of `Phase1`, at least. -/
theorem phase2Out_length {data : Nat → Byte} {len : Nat} {s : Dict}
    (hb : Built key (0 :: phase1 data len) s.list s.cur) : 3 ≤ (phase2Out key s).length := by
  unfold phase2Out
  cases hlist : s.list with
  | nil =>
    rw [hlist] at hb
    rw [hb.eq_of_nil, phase1]
    simp
  | cons e list =>
    have he := (hb.entry_length e (hlist ▸ List.mem_cons_self)).1
    simp only [List.flatMap_cons, List.length_append, List.length_cons]
    omega

/-- **The decompressors agree** on what `Compress` returns if and only if `Phase3` has replaced a
pair: its first key is then not the special one. -/
theorem decompress_agree_iff {data : Nat → Byte} {len : Nat} {z : List Byte}
    (hz : compress data len = some z) (hfit : z.length ≤ bufferSize + 1) :
    (∀ fuel junk, decompressPayload fuel junk z = decompressKernel fuel junk z) ↔
      z[1]? ≠ z[0]? := by
  obtain ⟨s, special, out, hs, -, hspecial, rfl, hshrunk⟩ := compress_spec hz
  obtain ⟨hstart, hfresh, -⟩ := phase2Start_spec hs hspecial
  have hb := phase2Search_built hs
  rw [hstart] at hb
  have hout : out.length ≤ bufferSize := Nat.le_of_succ_le_succ hfit
  constructor
  · intro hagree hsame
    obtain ⟨rest, rfl⟩ : ∃ rest, out = special :: rest := by
      cases out with
      | nil => exact absurd hsame (by simp)
      | cons a rest => exact ⟨rest, by rw [Option.some.inj hsame]⟩
    have hrest : rest = phase2Out (phase2Start (phase1 data len)).1 s := by
      rcases hshrunk.head with heq | ⟨key, rest', heq, hkey⟩
      · exact (List.cons.inj heq).2
      · exact absurd (List.cons.inj heq).1.symm hkey
    have hlen : 3 ≤ rest.length := by
      rw [hrest]
      exact phase2Out_length hb
    have hone := hagree 1 (outJunk 1)
    have htwo := hagree 1 (outJunk 2)
    rw [payload_junk (by decide) hlen hout] at hone htwo
    have hin : (outJunk 1).inBuf = (outJunk 2).inBuf := rfl
    have hrep := Except.ok.inj (hone.trans ((kernel_outBuf hin _).trans htwo.symm))
    rw [show rest.length - 2 = rest.length - 3 + 1 by omega, List.replicate_succ,
      List.replicate_succ] at hrep
    exact absurd (List.cons.inj hrep).1 (by decide)
  · intro hne fuel junk
    refine agree_of_round hshrunk (fun rest heq => hne ?_) ?_ hout fuel junk
    · rw [heq]
      rfl
    · exact fun heq => hfresh (heq ▸ List.mem_cons_self)

/-! ## Examples -/

theorem wordCount_le {k : Nat} (h : ∀ p ∈ data.zip data.tail, (data.zip data.tail).count p ≤ k)
    (w : Nat) : wordCount data w ≤ k := by
  unfold wordCount
  by_cases hmem : (BitVec.ofNat 8 w, BitVec.ofNat 8 (w / 256)) ∈ data.zip data.tail
  · exact h _ hmem
  · rw [List.count_eq_zero.mpr hmem]
    exact Nat.zero_le k

theorem bestMatch_le {k : Nat} (h : ∀ p ∈ data.zip data.tail, (data.zip data.tail).count p ≤ k) :
    (bestMatch data).2 ≤ k := by
  unfold bestMatch
  generalize List.range 0x10000 = l
  have hfold : ∀ best : Nat × Nat, best.2 ≤ k → (l.foldl (fun best i =>
      if best.2 < wordCount data i then (i, wordCount data i) else best) best).2 ≤ k := by
    induction l with
    | nil => exact fun _ hbest => hbest
    | cons i l ih =>
      intro best hbest
      rw [List.foldl_cons]
      refine ih _ ?_
      split_ifs
      · exact wordCount_le h i
      · exact hbest
  exact hfold (0, 0) (Nat.zero_le k)

/-- Where no pair occurs three times `Phase3` only puts its key in front, twice. -/
theorem phase3_of_rare {special : Byte} (hspecial : findBestChar data 0x100 = (special, 0))
    (h : (((special :: data).zip data).all fun p => ((special :: data).zip data).count p ≤ 2) =
      true) : phase3 data = some (special :: special :: data) := by
  have hround : round special (special :: data) = none := by
    unfold round
    simp only
    have hle : (bestMatch (special :: data)).2 ≤ 2 :=
      bestMatch_le fun p hp => of_decide_eq_true (List.all_eq_true.mp h p hp)
    exact if_neg (by omega)
  unfold phase3
  simp only [hspecial]
  rw [if_neg (by decide), shrink_succ, hround]

/-- The memory behind a list is zero. -/
def memoryOf (l : List Byte) (i : Nat) : Byte := l.getD i 0

/-- Buffers of zeros. -/
def zeroBuffers : Buffers := ⟨fun _ => 0, fun _ => 0, 0⟩

theorem eq_ok_of_toOption {r : Except Stop (List Byte)} {l : List Byte} (h : r.toOption = some l) :
    r = .ok l := by
  cases r with
  | error e => exact nomatch h
  | ok l' => exact congrArg Except.ok (Option.some.inj h)

/-- Four bytes without a pair that occurs three times. -/
theorem compress_four : compress (memoryOf [1, 2, 3, 4]) 4 = some [6, 6, 5, 0, 0, 1, 2, 3, 4] := by
  have h₁ : phase1 (memoryOf [1, 2, 3, 4]) 4 = [0, 1, 2, 3, 4] := by decide +kernel
  have h₂ : phase2 [0, 1, 2, 3, 4] = some [5, 0, 0, 1, 2, 3, 4] := by decide +kernel
  have h₃ : phase3 [5, 0, 0, 1, 2, 3, 4] = some [6, 6, 5, 0, 0, 1, 2, 3, 4] :=
    phase3_of_rare (by decide +kernel) (by decide +kernel)
  rw [compress, h₁, h₂]
  exact h₃

/-- `payload-decompress.c` takes zeros in `OutBuffer` for the data. -/
theorem compress_disagree :
    compress (memoryOf [1, 2, 3, 4]) 4 = some [6, 6, 5, 0, 0, 1, 2, 3, 4] ∧
      decompressKernel 3 zeroBuffers [6, 6, 5, 0, 0, 1, 2, 3, 4] = .ok [1, 2, 3, 4] ∧
      decompressPayload 3 zeroBuffers [6, 6, 5, 0, 0, 1, 2, 3, 4] = .ok [0, 0, 0] :=
  ⟨compress_four, eq_ok_of_toOption (by decide +kernel), eq_ok_of_toOption (by decide +kernel)⟩

theorem decompress_agree_iff_four : ¬ ∀ fuel junk,
    decompressPayload fuel junk [6, 6, 5, 0, 0, 1, 2, 3, 4] =
      decompressKernel fuel junk [6, 6, 5, 0, 0, 1, 2, 3, 4] :=
  fun h => (decompress_agree_iff compress_four (by decide)).mp h rfl

end Quals2017.Liberty
