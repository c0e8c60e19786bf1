import Quals2017.Hackermud.Solver

/-!
# From the challenge to the answer (`hackermud/server/main.cpp:36-50`,
`networkcommands.cpp:46-66`, `client/main.cpp:19-54`, `411-497`, `proof_tool/main.cpp`)

A new connection gets a challenge. The client prints it in hex, the proof tool reads it, searches
and prints an answer in hex, and the client sends what it reads back to the server.

* The challenge on a line and the answer on a line are lists of characters.
* `convertHexStringToData_hexLine`: a line of hex digits reads back.
* `word_responseData`, `proofInputs_responseData`: the words of the answer.
* **`exchange_accepted`**: the server accepts the answer, for every hash and every seed. Where the
  search has found nothing, the sixteen inputs of the answer are zeros and cancel.
-/

namespace Quals2017.Hackermud

open Quals2017.Lib.LittleEndian

/-! ## Lines of hex digits -/

/-- `AsciiToHex`. -/
def asciiToHex (c : Char) : UInt8 :=
  if '0' ≤ c ∧ c ≤ '9' then UInt8.ofNat (c.toNat - '0'.toNat)
  else if 'a' ≤ c ∧ c ≤ 'f' then UInt8.ofNat (c.toNat - 'a'.toNat + 10)
  else if 'A' ≤ c ∧ c ≤ 'F' then UInt8.ofNat (c.toNat - 'A'.toNat + 10)
  else 0

/-- The loop of `ConvertHexStringToData`: the first digit of a byte starts it, the second one
shifts it. -/
def hexLoop : List Char → List UInt8 → Nat → List UInt8 × Nat
  | [], pTemp, pos => (pTemp, pos)
  | c :: str, pTemp, pos =>
    if c = '\n' then (pTemp, pos)
    else if pos % 2 = 0 then hexLoop str (pTemp ++ [asciiToHex c]) (pos + 1)
    else
      hexLoop str (pTemp.set (pos / 2) (pTemp.getD (pos / 2) 0 <<< 4 ||| asciiToHex c)) (pos + 1)

/-- `ConvertHexStringToData`: nothing for an odd number of digits. -/
def convertHexStringToData (str : List Char) : Option (List UInt8) :=
  let (pTemp, pos) := hexLoop str [] 0
  if pos % 2 = 1 then none else some pTemp

/-- A digit of `%02x`. -/
def hexDigit (n : Nat) : Char := if n < 10 then Char.ofNat (48 + n) else Char.ofNat (87 + n)

/-- A byte in `%02x`. -/
def hexByte (b : UInt8) : List Char := [hexDigit (b.toNat / 16), hexDigit (b.toNat % 16)]

/-- Bytes on a line. -/
def hexLine (data : List UInt8) : List Char := data.flatMap hexByte ++ ['\n']

/-- `fgets` into a buffer of `size` characters. -/
def fgets (size : Nat) (input : List Char) : List Char :=
  let line := input.take (size - 1)
  line.take (line.idxOf '\n' + 1)

/-! ## The server, the client and the tool -/

/-- `SetProofSeed` on a new connection, with the words that `SetSeed` reads. -/
def newConnection (proofSeed : List UInt8) : Connection :=
  ⟨.waitProof, #v[word proofSeed 0, word proofSeed 1, word proofSeed 2, word proofSeed 3]⟩

/-- The data of `NWCSendAuthProof`, with `PROOF_OF_WORK_K` and `PROOF_OF_WORK_N`. -/
def authProof (proofSeed : List UInt8) : List UInt8 := 4 :: 105 :: proofSeed

/-- `GetProofOfWork` of the tool. It searches with up to eight blocks. -/
def toolGetProofOfWork (input : List Char) : Option Equihash := do
  let pHexData ← convertHexStringToData (fgets 512 input)
  if pHexData.length ≠ 18 then none
  else
    let seed := pHexData.drop 2
    if h : (pHexData.getD 0 0).toNat < 8 then
      some ⟨(pHexData.getD 1 0).toNat, (pHexData.getD 0 0).toNat,
        #v[word seed 0, word seed 1, word seed 2, word seed 3], h, 0, #[], [], #[]⟩
    else none

/-- `powInputs`: zeros behind what there is. -/
def powInputs (oSolution : Proof) : List UInt32 :=
  oSolution.inputs.take 16 ++ List.replicate (16 - oSolution.inputs.length) 0

/-- `responseData` of `CalculateProofOfWork`. -/
def responseData (oSolution : Proof) : List UInt8 :=
  (oSolution.nonce :: powInputs oSolution).flatMap fun w => leBytes 4 w.toNat

/-- The tool: the line it is given, and the one it prints. -/
def proofTool (blake2b : Vector UInt32 6 → Vector UInt32 8) (input : List Char) :
    Option (List Char) := do
  let e ← toolGetProofOfWork input
  let oSolution ← e.findProof blake2b
  return hexLine (responseData oSolution)

/-- `GetProofOfWork` of the client: the line that is typed, and the data it sends. -/
def clientGetProofOfWork (input : List Char) : Option (List UInt8) := do
  let pHexData ← convertHexStringToData (fgets 511 input)
  if pHexData.length ≠ 17 * 4 then none else some pHexData

/-! ## Hex reads back -/

theorem hexDigit_spec : ∀ n < 16, hexDigit n ≠ '\n' ∧ asciiToHex (hexDigit n) = UInt8.ofNat n := by
  decide

theorem shift_or_halves (b : UInt8) :
    UInt8.ofNat (b.toNat / 16) <<< 4 ||| UInt8.ofNat (b.toNat % 16) = b := by
  have hb := b.toNat_lt
  have hlow : b.toNat % 16 < 2 ^ 4 := Nat.mod_lt _ (by decide)
  have hshift : UInt8.toNat 4 % 8 = 4 := rfl
  refine UInt8.toNat_inj.mp ?_
  rw [UInt8.toNat_or, UInt8.toNat_shiftLeft, UInt8.toNat_ofNat', UInt8.toNat_ofNat', hshift,
    Nat.mod_eq_of_lt (by omega), Nat.mod_eq_of_lt (by omega), Nat.shiftLeft_eq,
    Nat.mod_eq_of_lt (by omega), ← Nat.shiftLeft_eq, ← Nat.shiftLeft_add_eq_or_of_lt hlow,
    Nat.shiftLeft_eq]
  omega

theorem hexLoop_hexByte (b : UInt8) (str : List Char) (pTemp : List UInt8) :
    hexLoop (hexByte b ++ str) pTemp (2 * pTemp.length) =
      hexLoop str (pTemp ++ [b]) (2 * (pTemp ++ [b]).length) := by
  obtain ⟨hhigh, hhighval⟩ := hexDigit_spec (b.toNat / 16) (by have := b.toNat_lt; omega)
  obtain ⟨hlow, hlowval⟩ := hexDigit_spec (b.toNat % 16) (by omega)
  have hodd : (2 * pTemp.length + 1) % 2 ≠ 0 := by omega
  have hhalf : (2 * pTemp.length + 1) / 2 = pTemp.length := by omega
  simp only [hexByte, List.cons_append, List.nil_append, hexLoop, if_neg hhigh, if_neg hlow,
    if_pos (Nat.mul_mod_right 2 pTemp.length), if_neg hodd, hhalf, hhighval, hlowval]
  simp [List.getD, List.set_append_right, shift_or_halves, Nat.mul_add]

/-- **A line of hex digits reads back.** -/
theorem convertHexStringToData_hexLine (data : List UInt8) :
    convertHexStringToData (hexLine data) = some data := by
  have hloop : ∀ (data pTemp : List UInt8),
      hexLoop (hexLine data) pTemp (2 * pTemp.length) =
        (pTemp ++ data, 2 * (pTemp ++ data).length) := by
    intro data
    induction data with
    | nil =>
      intro pTemp
      simp [hexLine, hexLoop]
    | cons b data ih =>
      intro pTemp
      have hline : hexLine (b :: data) = hexByte b ++ hexLine data := by
        simp [hexLine]
      rw [hline, hexLoop_hexByte, ih, List.append_assoc]
      rfl
  unfold convertHexStringToData
  rw [show (0 : Nat) = 2 * ([] : List UInt8).length from rfl, hloop]
  simp

theorem length_hexText (data : List UInt8) :
    (data.flatMap hexByte).length = 2 * data.length := by
  simp [List.length_flatMap, hexByte, Nat.mul_comm]

theorem newline_notMem_hexText (data : List UInt8) : '\n' ∉ data.flatMap hexByte := by
  intro hmem
  obtain ⟨b, -, hb⟩ := List.mem_flatMap.mp hmem
  have hlt := b.toNat_lt
  rcases List.mem_cons.mp hb with heq | hb
  · exact (hexDigit_spec (b.toNat / 16) (by omega)).1 heq.symm
  · exact (hexDigit_spec (b.toNat % 16) (by omega)).1 (List.mem_singleton.mp hb).symm

/-- A line that fits. -/
theorem fgets_hexLine {size : Nat} {data : List UInt8} (h : 2 * data.length + 1 < size) :
    fgets size (hexLine data) = hexLine data := by
  have hlen : (hexLine data).length = 2 * data.length + 1 := by
    rw [hexLine, List.length_append, length_hexText]
    rfl
  have hidx : (hexLine data).idxOf '\n' = 2 * data.length := by
    rw [hexLine, List.idxOf_append_of_notMem (newline_notMem_hexText data), length_hexText]
    rfl
  have htake : (hexLine data).take (size - 1) = hexLine data := List.take_of_length_le (by omega)
  rw [fgets, htake]
  change (hexLine data).take ((hexLine data).idxOf '\n' + 1) = _
  rw [hidx, ← hlen, List.take_length]

/-! ## The words of the answer -/

/-- A word of a request that is made of words. -/
theorem word_flatMap (words : List UInt32) {i : Nat} (hi : i < words.length) :
    word (words.flatMap fun w => leBytes 4 w.toNat) i = words[i] := by
  induction words generalizing i with
  | nil => exact absurd hi (Nat.not_lt_zero i)
  | cons w words ih =>
    have hlen : (leBytes 4 w.toNat).length = 4 := leBytes_length 4 w.toNat
    rw [List.flatMap_cons, word]
    cases i with
    | zero =>
      rw [Nat.mul_zero, List.drop_zero, List.take_left' hlen,
        leVal_leBytes (Nat.lt_of_lt_of_le w.toNat_lt (by decide))]
      exact UInt32.ofNat_toNat
    | succ i =>
      rw [Nat.mul_succ, Nat.add_comm, ← List.drop_drop, List.drop_left' hlen]
      exact ih (Nat.lt_of_succ_lt_succ hi)

theorem powInputs_length (oSolution : Proof) : (powInputs oSolution).length = 16 := by
  rw [powInputs, List.length_append, List.length_take, List.length_replicate]
  omega

theorem responseData_length (oSolution : Proof) : (responseData oSolution).length = 17 * 4 := by
  simp [responseData, List.length_flatMap, powInputs_length]

theorem word_responseData (oSolution : Proof) :
    word (responseData oSolution) 0 = oSolution.nonce :=
  word_flatMap (oSolution.nonce :: powInputs oSolution) (Nat.succ_pos _)

theorem proofInputs_responseData (oSolution : Proof) :
    proofInputs (responseData oSolution) = powInputs oSolution := by
  refine List.ext_getElem ?_ fun i hi hi' => ?_
  · rw [powInputs_length, proofInputs, List.length_map, List.length_range]
  · simp only [proofInputs, List.getElem_map, List.getElem_range]
    exact word_flatMap (oSolution.nonce :: powInputs oSolution) (Nat.succ_lt_succ hi')

/-! ## The exchange -/

section

variable (blake2b : Vector UInt32 6 → Vector UInt32 8) {proofSeed : List UInt8}

/-- **What the tool reads off the challenge.** -/
theorem toolGetProofOfWork_authProof (hseed : proofSeed.length = 16) :
    ∃ e, toolGetProofOfWork (hexLine (authProof proofSeed)) = some e ∧ e.n = 105 ∧ e.k = 4 ∧
      e.seed = (newConnection proofSeed).proofSeed := by
  have hlen : (authProof proofSeed).length = 18 := by
    rw [authProof, List.length_cons, List.length_cons, hseed]
  have hline := @fgets_hexLine 512 (authProof proofSeed) (by omega)
  refine ⟨⟨105, 4, _, by decide, 0, #[], [], #[]⟩, ?_, rfl, rfl, rfl⟩
  unfold toolGetProofOfWork
  rw [hline, convertHexStringToData_hexLine]
  simp only [Option.bind_eq_bind, Option.bind_some, hlen]
  rfl

/-- The server looks at the answer as the search did. -/
theorem testSolution_responseData (cur : Connection) {q : Proof} (hn : q.n = 105) (hk : q.k = 4)
    (hseed : q.seed = cur.proofSeed) :
    testSolution cur (responseData q) = { q with inputs := powInputs q } := by
  obtain ⟨n, k, seed, nonce, inputs, hlt⟩ := q
  obtain rfl : n = 105 := hn
  obtain rfl : k = 4 := hk
  obtain rfl : seed = cur.proofSeed := hseed
  unfold testSolution
  rw [word_responseData, proofInputs_responseData]

/-- An answer without a solution. -/
theorem powInputs_nil {q : Proof} (h : q.inputs = []) : powInputs q = List.replicate 16 0 := by
  rw [powInputs, h]
  rfl

/-- An answer with one. -/
theorem powInputs_solution {q : Proof} (h : q.inputs.length = 16) : powInputs q = q.inputs := by
  rw [powInputs, h, ← h, List.take_length, Nat.sub_self]
  exact List.append_nil _

/-- **Zeros are accepted**, and what the search has found. -/
theorem test_powInputs {q : Proof} (htest : q.test blake2b = true)
    (hinputs : q.inputs = [] ∨ q.inputs.length = 16) :
    ({ q with inputs := powInputs q } : Proof).test blake2b = true := by
  rcases hinputs with hnone | hlen
  · have hodd : Lib.Cancel.oddly (powInputs q) = [] := by
      rw [powInputs_nil hnone]
      decide
    refine (Proof.test_iff blake2b _).mpr fun j => ?_
    rw [hodd]
    rfl
  · rw [powInputs_solution hlen]
    exact htest

/-- **The server accepts the answer of the tool**, for every hash and every seed. -/
theorem exchange_accepted (hseed : proofSeed.length = 16) :
    ∃ line data, proofTool blake2b (hexLine (authProof proofSeed)) = some line ∧
      clientGetProofOfWork line = some data ∧
      nwcProofData blake2b (some (newConnection proofSeed)) data =
        (true, some (newConnection proofSeed).acceptProof) ∧
      (proofInputs data = List.replicate 16 0 ∨ (proofInputs data).Nodup) := by
  obtain ⟨e, he, hn, hk, hseed'⟩ := toolGetProofOfWork_authProof hseed
  have hbits : e.bits = 21 := by
    rw [Equihash.bits, hn, hk]
  obtain ⟨q, hq, hqn, hqk, hqseed, htest, hinputs⟩ :=
    e.findProof_sound blake2b (by omega) (by omega)
  rw [hk] at hinputs
  have hshort : (responseData q).length = 68 := responseData_length q
  have hline := @fgets_hexLine 511 (responseData q) (by omega)
  have hproof := testSolution_responseData (newConnection proofSeed) (hqn.trans hn) (hqk.trans hk)
    (hqseed.trans hseed')
  have haccept := test_powInputs blake2b htest (hinputs.imp_right And.left)
  refine ⟨hexLine (responseData q), responseData q, ?_, ?_, ?_, ?_⟩
  · simp [proofTool, he, hq]
  · simp [clientGetProofOfWork, hline, convertHexStringToData_hexLine, hshort]
  · have hwait : (newConnection proofSeed).connectionState = .waitProof := rfl
    simp [nwcProofData, hwait, hshort, hproof, haccept]
  · rw [proofInputs_responseData]
    rcases hinputs with hnone | ⟨hlen, hnodup⟩
    · exact .inl (powInputs_nil hnone)
    · rw [powInputs_solution hlen]
      exact .inr hnodup

/-- A seed of zeros, and a hash that is always zero. -/
theorem exchange_accepted_zero :
    ∃ line data, proofTool (fun _ => Vector.replicate 8 0)
        (hexLine (authProof (List.replicate 16 0))) = some line ∧
      clientGetProofOfWork line = some data ∧
      nwcProofData (fun _ => Vector.replicate 8 0)
          (some (newConnection (List.replicate 16 0))) data =
        (true, some (newConnection (List.replicate 16 0)).acceptProof) ∧
      (proofInputs data = List.replicate 16 0 ∨ (proofInputs data).Nodup) :=
  exchange_accepted _ (by decide)

end

end Quals2017.Hackermud
