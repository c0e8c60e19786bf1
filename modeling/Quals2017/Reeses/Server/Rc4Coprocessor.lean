import Quals2017.Lib.StreamCipher
import Mathlib.Logic.Equiv.Basic

/-!
# The RC4 coprocessor (`reeses_revenge/server/RC4Coprocessor.cpp`)

* `initKSA` (`RC4Coprocessor.cpp:85-109`) is the key schedule and the drop loop. A key of length
  0 divides by zero, which is `none`.
* `rc4Block` (`:111-124`) starts `i` and `j` at 0 for every block, over the `m_state` the block
  before has left. `blockLen` is a `uint8_t`: `encrypt_emulate` (`:53-83`) reads blocks of up to
  511 bytes, and of those `rc4Block` sees the size modulo 256.

Results:
* `isPerm_initKSA` and `isPerm_rc4Block`: `m_state` is a permutation of `0..255` after every
  initialisation, and stays one.
* `rc4Block_eq`: a block is combined with a key stream that depends on `m_state` and `blockLen`
  only. So blocks in order are a session of the stream cipher `cipher` (`processBlocks_eq`).
* **`rc4_sessions`**: the permutation invariant over any calls, and the round trip over any blocks.
-/

namespace Quals2017.Reeses.Server

open Quals2017.Lib.StreamCipher

/-- `m_state`. -/
abbrev Rc4State := Fin 256 → UInt32

/-- The cell an index names. Every index of the code is reduced modulo 256. -/
def cell (i : UInt32) : Fin 256 := Fin.ofNat 256 i.toNat

/-- `t = m_state[i]; m_state[i] = m_state[j]; m_state[j] = t`. -/
def swapCells (i j : Fin 256) (m : Rc4State) : Rc4State :=
  let t := m i
  Function.update (Function.update m i (m j)) j t

/-- The key schedule, with the given number of rounds left. -/
def ksaLoop (pKeyData : Nat → UInt8) (keyLen : UInt8) :
    Nat → UInt32 → UInt32 → Rc4State → UInt32 × UInt32 × Rc4State
  | 0, i, j, m => (i, j, m)
  | n + 1, i, j, m =>
    let j := (j + m (cell i) + (pKeyData (i % keyLen.toUInt32).toNat).toUInt32) % 256
    ksaLoop pKeyData keyLen n (i + 1) j (swapCells (cell i) (cell j) m)

/-- The drop loop, with the given number of rounds left. -/
def dropLoop : Nat → UInt32 → UInt32 → Rc4State → Rc4State
  | 0, _, _, m => m
  | n + 1, i, j, m =>
    let i := (i + 1) % 256
    let j := (j + m (cell i)) % 256
    dropLoop n i j (swapCells (cell i) (cell j) m)

/-- `InitKSA`. The old `m_state` is overwritten. -/
def initKSA (pKeyData : Nat → UInt8) (keyLen : UInt8) (dropAmount : UInt32) : Option Rc4State :=
  if keyLen = 0 then none
  else
    let (i, j, m) := ksaLoop pKeyData keyLen 256 0 0 fun i => UInt32.ofNat i
    some (dropLoop dropAmount.toNat i j m)

/-- The loop of `RC4Block` at position `x`, with the given number of rounds left. -/
def rc4Loop : Nat → Nat → UInt32 → UInt32 → Rc4State → List UInt8 → Rc4State × List UInt8
  | 0, _, _, _, m, pBlock => (m, pBlock)
  | n + 1, x, i, j, m, pBlock =>
    let i := (i + 1) % 256
    let j := (j + m (cell i)) % 256
    let m := swapCells (cell i) (cell j) m
    let key := m (cell ((m (cell i) + m (cell j)) % 256))
    rc4Loop n (x + 1) i j m (pBlock.modify x fun b => (key ^^^ b.toUInt32).toUInt8)

/-- `RC4Block`. A block shorter than `blockLen` is read past its end, which is `none`. -/
def rc4Block (m : Rc4State) (pBlock : List UInt8) (blockLen : UInt8) :
    Option (Rc4State × List UInt8) :=
  if blockLen.toNat ≤ pBlock.length then some (rc4Loop blockLen.toNat 0 0 0 m pBlock) else none

/-- The call of `encrypt_emulate`, on the `blockSize` bytes it has read. -/
def encryptBlock (m : Rc4State) (rsaBlock : List UInt8) : Option (Rc4State × List UInt8) :=
  rc4Block m rsaBlock (UInt8.ofNat rsaBlock.length)

/-- Blocks in order. -/
def processBlocks : Rc4State → List (List UInt8) → Option (Rc4State × List (List UInt8))
  | m, [] => some (m, [])
  | m, block :: blocks => do
    let (m, out) ← encryptBlock m block
    let (m, outs) ← processBlocks m blocks
    some (m, out :: outs)

/-- An initialisation, then blocks in order. -/
def session (pKeyData : Nat → UInt8) (keyLen : UInt8) (dropAmount : UInt32)
    (blocks : List (List UInt8)) : Option (Rc4State × List (List UInt8)) := do
  let m ← initKSA pKeyData keyLen dropAmount
  processBlocks m blocks

/-- A call of the coprocessor. -/
inductive Rc4Call where
  | initKSA (pKeyData : Nat → UInt8) (keyLen : UInt8) (dropAmount : UInt32)
  | rc4Block (pBlock : List UInt8) (blockLen : UInt8)

/-- `m_state` after a call. -/
def Rc4Call.exec (m : Rc4State) : Rc4Call → Option Rc4State
  | .initKSA pKeyData keyLen dropAmount => Server.initKSA pKeyData keyLen dropAmount
  | .rc4Block pBlock blockLen => (Server.rc4Block m pBlock blockLen).map Prod.fst

/-- `m_state` after calls. -/
def runCalls (m : Rc4State) (calls : List Rc4Call) : Option Rc4State :=
  calls.foldlM Rc4Call.exec m

/-! ## `m_state` is a permutation -/

/-- `m_state` is a permutation of `0..255`. -/
def IsPerm (m : Rc4State) : Prop := ∃ σ : Equiv.Perm (Fin 256), m = fun i => UInt32.ofNat (σ i)

theorem swapCells_eq (i j : Fin 256) (m : Rc4State) : swapCells i j m = m ∘ Equiv.swap i j := by
  unfold swapCells
  funext k
  rw [Function.comp_apply]
  by_cases hj : k = j
  · rw [hj, Function.update_self, Equiv.swap_apply_right]
  · rw [Function.update_of_ne hj]
    by_cases hi : k = i
    · rw [hi, Function.update_self, Equiv.swap_apply_left]
    · rw [Function.update_of_ne hi, Equiv.swap_apply_of_ne_of_ne hi hj]

theorem isPerm_swapCells {m : Rc4State} (h : IsPerm m) (i j : Fin 256) :
    IsPerm (swapCells i j m) := by
  obtain ⟨σ, rfl⟩ := h
  exact ⟨(Equiv.swap i j).trans σ, swapCells_eq i j _⟩

theorem isPerm_ksaLoop {pKeyData : Nat → UInt8} {keyLen : UInt8} : ∀ {n : Nat} {i j : UInt32}
    {m : Rc4State}, IsPerm m → IsPerm (ksaLoop pKeyData keyLen n i j m).2.2
  | 0, _, _, _, h => h
  | _ + 1, _, _, _, h => by
    unfold ksaLoop
    exact isPerm_ksaLoop (isPerm_swapCells h _ _)

theorem isPerm_dropLoop : ∀ {n : Nat} {i j : UInt32} {m : Rc4State}, IsPerm m →
    IsPerm (dropLoop n i j m)
  | 0, _, _, _, h => h
  | _ + 1, _, _, _, h => by
    unfold dropLoop
    exact isPerm_dropLoop (isPerm_swapCells h _ _)

theorem isPerm_rc4Loop : ∀ {n x : Nat} {i j : UInt32} {m : Rc4State} {pBlock : List UInt8},
    IsPerm m → IsPerm (rc4Loop n x i j m pBlock).1
  | 0, _, _, _, _, _, h => h
  | _ + 1, _, _, _, _, _, h => by
    unfold rc4Loop
    exact isPerm_rc4Loop (isPerm_swapCells h _ _)

/-- Every initialisation leaves a permutation, whatever `m_state` held before. -/
theorem isPerm_initKSA {pKeyData : Nat → UInt8} {keyLen : UInt8} {dropAmount : UInt32}
    {m : Rc4State} (h : initKSA pKeyData keyLen dropAmount = some m) : IsPerm m := by
  unfold initKSA at h
  split_ifs at h
  have hid : IsPerm fun i => UInt32.ofNat i := ⟨Equiv.refl _, rfl⟩
  have hksa : IsPerm (ksaLoop pKeyData keyLen 256 0 0 fun i => UInt32.ofNat i).2.2 := isPerm_ksaLoop hid
  generalize ksaLoop pKeyData keyLen 256 0 0 (fun i => UInt32.ofNat i) = r at h hksa
  rw [← Option.some.inj h]
  exact isPerm_dropLoop hksa

/-- Every block keeps a permutation. -/
theorem isPerm_rc4Block {m : Rc4State} (hm : IsPerm m) {pBlock : List UInt8} {blockLen : UInt8}
    {r : Rc4State × List UInt8} (h : rc4Block m pBlock blockLen = some r) : IsPerm r.1 := by
  unfold rc4Block at h
  split_ifs at h
  rw [← Option.some.inj h]
  exact isPerm_rc4Loop hm

/-- A call keeps a permutation, and an initialisation makes one. -/
theorem exec_isPerm {m m' : Rc4State} {call : Rc4Call} (h : call.exec m = some m')
    (hm : IsPerm m ∨ ∃ k n d, call = .initKSA k n d) : IsPerm m' := by
  unfold Rc4Call.exec at h
  cases call with
  | initKSA k n d => exact isPerm_initKSA h
  | rc4Block pBlock blockLen =>
    obtain ⟨r, hr, rfl⟩ := Option.map_eq_some_iff.mp h
    rcases hm with hm | ⟨k, n, d, he⟩
    · exact isPerm_rc4Block hm hr
    · exact absurd he (by simp)

/-- **Over any calls**: `m_state` is a permutation from the first initialisation on. -/
theorem runCalls_isPerm {calls : List Rc4Call} : ∀ {m m' : Rc4State},
    runCalls m calls = some m' → (IsPerm m ∨ ∃ k n d, Rc4Call.initKSA k n d ∈ calls) →
    IsPerm m' := by
  induction calls with
  | nil =>
    intro m m' h hm
    obtain rfl := Option.some.inj h
    rcases hm with hm | ⟨k, n, d, hm⟩
    · exact hm
    · exact absurd hm List.not_mem_nil
  | cons call calls ih =>
    intro m m' h hm
    rw [runCalls, List.foldlM_cons] at h
    obtain ⟨m₁, h₁, h₂⟩ := Option.bind_eq_some_iff.mp h
    refine ih h₂ ?_
    rcases hm with hm | ⟨k, n, d, hm⟩
    · exact Or.inl (exec_isPerm h₁ (Or.inl hm))
    · rcases List.mem_cons.mp hm with hm | hm
      · exact Or.inl (exec_isPerm h₁ (Or.inr ⟨k, n, d, hm.symm⟩))
      · exact Or.inr ⟨k, n, d, hm⟩

/-! ## A block is combined with a key stream -/

/-- The key byte of each round of `rc4Loop`, and 0 behind the last. -/
def keyByte : Nat → UInt32 → UInt32 → Rc4State → Nat → UInt8
  | 0, _, _, _, _ => 0
  | n + 1, i, j, m, k =>
    let i := (i + 1) % 256
    let j := (j + m (cell i)) % 256
    let m := swapCells (cell i) (cell j) m
    match k with
    | 0 => (m (cell ((m (cell i) + m (cell j)) % 256))).toUInt8
    | k + 1 => keyByte n i j m k

/-- The state moves on as in the drop loop, and place `x + k` meets the key byte of round `k`. -/
theorem rc4Loop_eq : ∀ (n x : Nat) (i j : UInt32) (m : Rc4State) (pBlock : List UInt8),
    rc4Loop n x i j m pBlock = (dropLoop n i j m,
      pBlock.mapIdx fun k b => if k < x then b else keyByte n i j m (k - x) ^^^ b)
  | 0, x, i, j, m, pBlock => by
    refine Prod.ext rfl (List.ext_getElem (List.length_mapIdx).symm fun k hk _ => ?_)
    rw [List.getElem_mapIdx]
    split_ifs
    · rfl
    · exact UInt8.zero_xor.symm
  | n + 1, x, i, j, m, pBlock => by
    rw [rc4Loop, rc4Loop_eq n]
    refine Prod.ext rfl (List.ext_getElem (by simp) fun k hk _ => ?_)
    simp only [List.getElem_mapIdx, List.getElem_modify]
    rcases Nat.lt_trichotomy k x with hlt | rfl | hgt
    · rw [if_pos (by omega), if_neg (by omega), if_pos hlt]
    · rw [if_pos (Nat.lt_succ_self k), if_pos rfl, if_neg (Nat.lt_irrefl k), Nat.sub_self,
        UInt32.toUInt8_xor, UInt8.toUInt8_toUInt32]
      rfl
    · rw [if_neg (by omega), if_neg (by omega), if_neg (by omega),
        show k - x = (k - (x + 1)) + 1 by omega]
      rfl

/-- The coprocessor as a stream cipher: of a block of `n` bytes it takes `n % 256`. -/
def cipher : Cipher Rc4State where
  next m n := dropLoop (UInt8.ofNat n).toNat 0 0 m
  mask m n := keyByte (UInt8.ofNat n).toNat 0 0 m

/-- **A block is combined with a key stream** that does not depend on its bytes. -/
theorem encryptBlock_eq (m : Rc4State) (rsaBlock : List UInt8) :
    encryptBlock m rsaBlock =
      some (cipher.next m rsaBlock.length, cipher.apply m rsaBlock) := by
  unfold encryptBlock rc4Block
  have hlen : (UInt8.ofNat rsaBlock.length).toNat ≤ rsaBlock.length := by
    rw [UInt8.toNat_ofNat']
    exact Nat.mod_le _ _
  rw [if_pos hlen, rc4Loop_eq]
  rfl

theorem processBlocks_eq (m : Rc4State) (blocks : List (List UInt8)) :
    processBlocks m blocks = some (cipher.applyAll m blocks) := by
  induction blocks generalizing m with
  | nil => rfl
  | cons block blocks ih =>
    rw [processBlocks, encryptBlock_eq]
    simp only [Option.bind_eq_bind, Option.bind_some, ih]
    rfl

theorem session_eq (pKeyData : Nat → UInt8) {keyLen : UInt8} (h : keyLen ≠ 0)
    (dropAmount : UInt32) : ∃ m, ∀ blocks,
      session pKeyData keyLen dropAmount blocks = some (cipher.applyAll m blocks) := by
  unfold session initKSA
  rw [if_neg h]
  exact ⟨_, fun blocks => processBlocks_eq _ blocks⟩

/-- **The RC4 coprocessor.** After any calls with an initialisation among them `m_state` is a
permutation. Blocks encrypted in order after an initialisation come back when the results are
processed after the same initialisation. -/
theorem rc4_sessions :
    (∀ m calls m', runCalls m calls = some m' →
      (∃ k n d, Rc4Call.initKSA k n d ∈ calls) → IsPerm m') ∧
    ∀ pKeyData keyLen dropAmount blocks, keyLen ≠ 0 → ∃ m out,
      session pKeyData keyLen dropAmount blocks = some (m, out) ∧
      out.map List.length = blocks.map List.length ∧
      session pKeyData keyLen dropAmount out = some (m, blocks) := by
  refine ⟨fun m calls m' h hinit => runCalls_isPerm h (Or.inr hinit), ?_⟩
  intro pKeyData keyLen dropAmount blocks hkey
  obtain ⟨m, hm⟩ := session_eq pKeyData hkey dropAmount
  refine ⟨_, _, hm blocks, cipher.applyAll_lengths m blocks, ?_⟩
  rw [hm, cipher.applyAll_applyAll]

/-- The key `"K"`, no drop, and two blocks. -/
theorem rc4_sessions_key :
    (∃ m, runCalls (fun _ => 7) [.initKSA (fun _ => 75) 1 0, .rc4Block [1, 2, 3] 3] = some m ∧
      IsPerm m) ∧
    ∃ m out, session (fun _ => 75) 1 0 [[1, 2, 3], [4]] = some (m, out) ∧
      out.map List.length = [3, 1] ∧
      session (fun _ => 75) 1 0 out = some (m, [[1, 2, 3], [4]]) := by
  have hrun : (runCalls (fun _ => 7)
      [.initKSA (fun _ => 75) 1 0, .rc4Block [1, 2, 3] 3]).isSome := rfl
  obtain ⟨m, hm⟩ := Option.isSome_iff_exists.mp hrun
  exact ⟨⟨m, hm, rc4_sessions.1 _ _ m hm ⟨_, _, _, List.mem_cons_self⟩⟩,
    rc4_sessions.2 (fun _ => 75) 1 0 [[1, 2, 3], [4]] (by decide)⟩

end Quals2017.Reeses.Server
