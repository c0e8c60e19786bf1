import Mathlib.Data.List.FinRange
import Mathlib.Data.List.Sort
import Quals2017.Lib.Cancel
import Quals2017.Lib.LittleEndian

/-!
# Proofs of work (`hackermud/server/pow.cpp:173-218`, `networkcommands.cpp:1037-1083`,
`connection.h:9-33`)

A proof is a nonce and sixteen inputs whose hashes cancel in five blocks of 21 bits. The solver
throws away what has an input twice. `Test` does not ask for that.

* The hash is any function from the six words it is given to the eight it fills.
* `duplicate_eq_false_iff`: what the duplicate check of `FindProof` accepts.
* `test_iff`: `Test` sees only the inputs that occur an odd number of times.
* **`accepted_distinct_iff`**: an accepted proof has no input twice, exactly when it has none or
  when these do not cancel.
-/

namespace Quals2017.Hackermud

open Quals2017.Lib.Cancel Quals2017.Lib.LittleEndian

/-- `_POW::Proof`. The blocks lie in the eight words of a hash. -/
structure Proof where
  n : Nat
  k : Nat
  seed : Vector UInt32 4
  nonce : UInt32
  inputs : List UInt32
  k_lt : k < 8

section

variable (blake2b : Vector UInt32 6 → Vector UInt32 8)

/-- The `j`-th block of `n/(k+1)` bits of the hash of an input. -/
def Proof.block (p : Proof) (input : UInt32) (j : Fin (p.k + 1)) : UInt32 :=
  let buf := blake2b #v[p.seed[0], p.seed[1], p.seed[2], p.seed[3], p.nonce, input]
  buf.get ⟨j, Nat.lt_of_lt_of_le j.2 p.k_lt⟩ >>> UInt32.ofNat (32 - p.n / (p.k + 1))

/-- The blocks after a loop over some inputs. -/
def Proof.blocks (p : Proof) (inputs : List UInt32) : Fin (p.k + 1) → UInt32 :=
  inputs.foldl (fun blocks input j => blocks j ^^^ p.block blake2b input j) fun _ => 0

/-- `Proof::Test`. -/
def Proof.test (p : Proof) : Bool :=
  (List.finRange (p.k + 1)).all fun j => p.blocks blake2b p.inputs j == 0

/-- `eConnectionState`. -/
inductive ConnectionState
  | waitProof
  | waitAuth
  | player
  | disconnect
  deriving DecidableEq

/-- What `CServerConnection` has for a proof. -/
structure Connection where
  connectionState : ConnectionState
  proofSeed : Vector UInt32 4

/-- A word of the request. -/
def word (pData : List UInt8) (i : Nat) : UInt32 :=
  UInt32.ofNat (leVal ((pData.drop (4 * i)).take 4))

/-- `oProofInputs`. -/
def proofInputs (pData : List UInt8) : List UInt32 :=
  (List.range 16).map fun i => word pData (i + 1)

/-- `oTestSolution`, with `PROOF_OF_WORK_N` and `PROOF_OF_WORK_K`. -/
def testSolution (cur : Connection) (pData : List UInt8) : Proof where
  n := 105
  k := 4
  seed := cur.proofSeed
  nonce := word pData 0
  inputs := proofInputs pData
  k_lt := by decide

/-- `AcceptProof`. -/
def Connection.acceptProof (cur : Connection) : Connection :=
  { cur with connectionState := .waitAuth }

/-- `NWCProofData`. -/
def nwcProofData (pCur : Option Connection) (pData : List UInt8) : Bool × Option Connection :=
  match pCur with
  | none => (false, none)
  | some cur =>
    if cur.connectionState ≠ .waitProof then (false, some cur)
    else if pData.length ≠ 17 * 4 then (false, some cur)
    else if !(testSolution cur pData).test blake2b then (false, some cur)
    else (true, some cur.acceptProof)

end

/-! ## The check of the solver -/

/-- Two equal neighbours. -/
def neighbours : List UInt32 → Bool
  | a :: b :: vec => a == b || neighbours (b :: vec)
  | _ => false

/-- `dup` of `FindProof`. -/
def duplicate (inputs : List UInt32) : Bool := neighbours (inputs.mergeSort fun a b => a ≤ b)

/-- In a sorted list equal entries are neighbours. -/
theorem neighbours_eq_false_iff : ∀ {vec : List UInt32}, vec.Pairwise (· ≤ ·) →
    (neighbours vec = false ↔ vec.Nodup)
  | [], _ => by simp [neighbours]
  | [a], _ => by simp [neighbours]
  | a :: b :: vec, h => by
    obtain ⟨ha, htail⟩ := List.pairwise_cons.mp h
    rw [neighbours, Bool.or_eq_false_iff, neighbours_eq_false_iff htail, beq_eq_false_iff_ne,
      @List.nodup_cons _ a]
    refine and_congr_left fun _ => ⟨fun hne hmem => ?_, fun hnot heq => ?_⟩
    · obtain heq | hmem := List.mem_cons.mp hmem
      · exact hne heq
      · have hba := (List.pairwise_cons.mp htail).1 a hmem
        exact hne (UInt32.le_antisymm (ha b List.mem_cons_self) hba)
    · exact hnot (heq ▸ List.mem_cons_self)

/-- **What the solver accepts** has no input twice. -/
theorem duplicate_eq_false_iff (inputs : List UInt32) :
    duplicate inputs = false ↔ inputs.Nodup := by
  have hsorted : (inputs.mergeSort fun a b => a ≤ b).Pairwise (· ≤ ·) := by
    have hpairs := @List.pairwise_mergeSort _ (fun a b : UInt32 => decide (a ≤ b))
      (fun a b c => by simpa using UInt32.le_trans) (fun a b => by simpa using UInt32.le_total a b)
      inputs
    simpa using hpairs
  rw [duplicate, neighbours_eq_false_iff hsorted, (List.mergeSort_perm inputs _).nodup_iff]

/-! ## What `Test` sees -/

section

variable (blake2b : Vector UInt32 6 → Vector UInt32 8)

/-- **Pairs of inputs cancel.** -/
theorem Proof.blocks_oddly (p : Proof) (inputs : List UInt32) :
    p.blocks blake2b inputs = p.blocks blake2b (oddly inputs) := by
  refine foldl_oddly (fun blocks input input' => ?_) (fun blocks input => ?_) inputs _
  · funext j
    rw [UInt32.xor_assoc, UInt32.xor_comm (p.block blake2b input j), UInt32.xor_assoc]
  · funext j
    rw [UInt32.xor_assoc, UInt32.xor_self, UInt32.xor_zero]

theorem Proof.test_iff (p : Proof) :
    p.test blake2b = true ↔ ∀ j, p.blocks blake2b (oddly p.inputs) j = 0 := by
  rw [Proof.test, p.blocks_oddly, List.all_eq_true]
  simp

/-- A proof that `Test` accepts. -/
theorem Proof.test_distinct_iff (p : Proof) :
    (p.test blake2b = true → p.inputs.Nodup) ↔
      p.inputs.Nodup ∨ ∃ j, p.blocks blake2b (oddly p.inputs) j ≠ 0 := by
  rw [p.test_iff, imp_iff_or_not]
  simp only [not_forall]

/-- A request that `NWCProofData` accepts. -/
theorem nwcProofData_iff (pCur : Option Connection) (pData : List UInt8) :
    (nwcProofData blake2b pCur pData).1 = true ↔ ∃ cur, pCur = some cur ∧
      cur.connectionState = .waitProof ∧ pData.length = 17 * 4 ∧
        (testSolution cur pData).test blake2b = true := by
  unfold nwcProofData
  cases pCur with
  | none => simp
  | some cur =>
    by_cases hstate : cur.connectionState = .waitProof
    · by_cases hlen : pData.length = 17 * 4
      · cases htest : (testSolution cur pData).test blake2b <;> simp [hstate, hlen, htest]
      · simp [hlen]
    · simp [hstate]

/-- **An accepted proof has pairwise distinct inputs**, exactly when the request is refused before
the test, its inputs are distinct, or those that occur an odd number of times do not cancel. -/
theorem accepted_distinct_iff :
    (∀ p : Proof, (p.test blake2b = true → p.inputs.Nodup) ↔
      p.inputs.Nodup ∨ ∃ j, p.blocks blake2b (oddly p.inputs) j ≠ 0) ∧
    ∀ (pCur : Option Connection) (pData : List UInt8),
      ((nwcProofData blake2b pCur pData).1 = true → (proofInputs pData).Nodup) ↔
        ∀ cur, pCur = some cur → cur.connectionState = .waitProof → pData.length = 17 * 4 →
          (proofInputs pData).Nodup ∨
            ∃ j, (testSolution cur pData).blocks blake2b (oddly (proofInputs pData)) j ≠ 0 := by
  refine ⟨fun p => p.test_distinct_iff blake2b, fun pCur pData => ?_⟩
  rw [nwcProofData_iff]
  constructor
  · intro h cur hcur hstate hlen
    exact ((testSolution cur pData).test_distinct_iff blake2b).mp fun htest =>
      h ⟨cur, hcur, hstate, hlen, htest⟩
  · rintro h ⟨cur, hcur, hstate, hlen, htest⟩
    exact ((testSolution cur pData).test_distinct_iff blake2b).mpr (h cur hcur hstate hlen) htest

end

/-- A connection that waits for its proof. -/
def waiting : Connection := ⟨.waitProof, Vector.replicate 4 0⟩

/-- **Sixteen times the same input**, whatever the hash is. -/
theorem nwcProofData_repeated : ¬ ∃ blake2b : Vector UInt32 6 → Vector UInt32 8,
    ∀ (pCur : Option Connection) (pData : List UInt8),
      (nwcProofData blake2b pCur pData).1 = true → (proofInputs pData).Nodup := by
  rintro ⟨blake2b, h⟩
  have hinputs : proofInputs (List.replicate 68 0) = List.replicate 16 0 := by decide
  have hnone : oddly (List.replicate 16 (0 : UInt32)) = [] := by decide
  have htest : (testSolution waiting (List.replicate 68 0)).test blake2b = true := by
    refine (Proof.test_iff blake2b _).mpr fun j => ?_
    have hodd : oddly (testSolution waiting (List.replicate 68 0)).inputs = [] :=
      (congrArg oddly hinputs).trans hnone
    rw [hodd]
    rfl
  have hnd := h (some waiting) (List.replicate 68 0)
    ((nwcProofData_iff blake2b _ _).mpr ⟨waiting, rfl, rfl, rfl, htest⟩)
  rw [hinputs] at hnd
  exact absurd hnd (by decide)

end Quals2017.Hackermud
