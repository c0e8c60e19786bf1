import Mathlib.Algebra.Order.Ring.Nat
import Mathlib.Data.Fintype.EquivFin
import Mathlib.Data.Finite.Prod
import Quals2017.Lib.PackedBytes
import Quals2017.Liberty.Ratchet

/-!
# The flag device (`liberty/kernel/readwrite.c`, `liberty/kernel/defcon_2017_dev.c:62-107,123-141`,
`liberty/kernel/encrypt-knock.py`)

The module holds the encrypted flag. It gives the first bytes away once, takes an IV and a key, in
that order, wants 32 knocks, each of which also unmasks a byte of the key, and then decrypts the
flag for one read of 128 bytes. Every other call wipes the flag, the IV and the key.

* A call has the bytes it copies in, and a reply the bytes it copies out; no copy fails.
* `encryptKnock` is the script that makes the constants of `defcon_2017_ioctl`.
* `encryptKnock_reqKnockVal`: what the module makes of the constants is the text of the script.
* `step_grant`, `step_wiped`: a call keeps the promises so far, or the flag is gone for good.
* **`leaks_iff`**: the replies tell something of the flag behind the first bytes exactly where the
  calls hold the one read, the two writes and the 32 knocks, before a read of 128 bytes.
-/

namespace Quals2017.Liberty.Device

open Quals2017.Lib Quals2017.Lib.Chunks Quals2017.Liberty.Ratchet
open Quals2017.Lib.PackedBytes (get_mix get_shift_or get_xor)

/-! ## The knocks -/

/-- The constants of `defcon_2017_ioctl`. -/
structure Knocks where
  knockVals : List Nat
  keyXor : Nat
  knockXor : Nat
  deriving DecidableEq

/-- `ReqKnockVal` after so many knocks. -/
def Knocks.reqKnockVal (t : Knocks) (knockCount : Nat) : Nat :=
  let reqKnockVal := t.knockVals.getD (knockCount / 8) 0 ^^^ t.keyXor
  let shiftAmount := 56 - knockCount % 8 * 8
  let reqKnockVal := reqKnockVal >>> shiftAmount &&& 0xff
  let shiftAmount := knockCount % 8 * 8
  reqKnockVal ^^^ (t.knockXor >>> shiftAmount &&& 0xff)

/-- The constants in the source. -/
def Knocks.defcon : Knocks where
  knockVals := [0x2709030e0a00633a, 0x370a656d526e0f10, 0x042431232c202459, 0x342d366d0d2b311c]
  keyXor := 0xfc38b42ec3023f1c
  knockXor := 0x657c4c8663f1749f

/-- `Val <<= 8; Val |= ord(c)` for the characters of a text. -/
def word (text : List UInt8) : Nat := text.foldl (fun val c => val <<< 8 ||| c.toNat) 0

/-- `encrypt-knock.py` for a key of eight characters and a text of 32. -/
def encryptKnock (key knockData : List UInt8) (keyXorVal : Nat) : Knocks :=
  let keyVal := word key
  { knockVals := (List.range 4).map fun j => word ((knockData.drop (8 * j)).take 8) ^^^ keyVal
    keyXor := (List.range key.length).foldl (fun keyVal i =>
      let xorShiftAmount := i * 8
      let keyShiftAmount := 56 - xorShiftAmount
      keyVal ^^^ (keyXorVal >>> xorShiftAmount &&& 0xff) <<< keyShiftAmount) keyVal
    knockXor := keyXorVal }

/-- `"cLEMENCy"`. -/
def cLEMENCy : List UInt8 := [99, 76, 69, 77, 69, 78, 67, 121]

/-- `DecryptXorKey` of the server, and `KnockData` of the script. -/
def decryptXorKey : Key :=
  #v[68, 69, 70, 67, 79, 78, 32, 67, 84, 70, 32, 0x20, 0x17, 32, 76, 105, 103, 104, 116, 110, 105,
    110, 103, 32, 87, 97, 115, 32, 72, 101, 114, 101]

/-- The constants in the source are those that the script prints. -/
theorem encryptKnock_defcon :
    encryptKnock cLEMENCy decryptXorKey.toList 0x657c4c8663f1749f = Knocks.defcon := by
  decide +kernel

/-- A text has its last character lowest. -/
theorem get_word (text : List UInt8) (j : Nat) :
    PackedBytes.get (word text) j = (text.reverse.map UInt8.toNat).getD j 0 := by
  induction text using List.reverseRecOn generalizing j with
  | nil => simp [word, PackedBytes.get]
  | append_singleton text c ih =>
    have hword : word (text ++ [c]) = word text <<< 8 ||| c.toNat := by
      rw [word, List.foldl_append]
      rfl
    rw [hword, get_shift_or c.toNat_lt, List.reverse_append, List.reverse_singleton,
      List.singleton_append, List.map_cons]
    cases j with
    | zero => rfl
    | succ j => rw [if_neg (Nat.succ_ne_zero j), Nat.add_sub_cancel, ih, List.getD_cons_succ]

/-- The key of the script is mixed in byte by byte. -/
theorem get_keyXor (keyXorVal keyVal : Nat) {n : Nat} (hn : n ≤ 8) {j : Nat} (hj : j < 8) :
    PackedBytes.get ((List.range n).foldl (fun keyVal i =>
        keyVal ^^^ (keyXorVal >>> (i * 8) &&& 0xff) <<< (56 - i * 8)) keyVal) (7 - j) =
      PackedBytes.get keyVal (7 - j) ^^^
        if j < n then keyXorVal >>> (j * 8) &&& 0xff else 0 := by
  induction n with
  | zero => simp
  | succ n ih =>
    have hshift : 56 - n * 8 = 8 * (7 - n) := by omega
    have hbyte : keyXorVal >>> (n * 8) &&& 0xff < 256 :=
      Nat.lt_of_le_of_lt Nat.and_le_right (by decide)
    rw [List.range_succ, List.foldl_append, List.foldl_cons, List.foldl_nil, hshift,
      get_xor hbyte, ih (by omega)]
    by_cases hjn : j = n
    · subst hjn
      simp
    · have hne : ¬ 7 - j = 7 - n := by omega
      have hiff : j < n + 1 ↔ j < n := by omega
      simp [hne, hiff]

/-- A byte of eight, counted from the top. -/
theorem byte_top (v : Nat) {j : Nat} (hj : j < 8) :
    v >>> (56 - j * 8) &&& 0xff = PackedBytes.get v (7 - j) := by
  rw [PackedBytes.get, show (0xff : Nat) = 2 ^ 8 - 1 from rfl, Nat.and_two_pow_sub_one_eq_mod]
  congr 2
  omega

/-- The characters of eight, counted from the top. -/
theorem get_word_top {text : List UInt8} (h : text.length = 8) {j : Nat} (hj : j < 8) :
    PackedBytes.get (word text) (7 - j) = (text.getD j 0).toNat := by
  have hlast : 7 - j < text.reverse.length := by
    rw [List.length_reverse]
    omega
  have hback : text.length - 1 - (7 - j) = j := by omega
  rw [get_word, List.getD_eq_getElem _ _ (by rwa [List.length_map]), List.getElem_map,
    List.getElem_reverse, List.getD_eq_getElem _ _ (by omega)]
  simp only [hback]

/-- **The module undoes the script**, whatever its key, its text and its mask. -/
theorem encryptKnock_reqKnockVal {key knockData : List UInt8} (hkey : key.length = 8)
    (hdata : knockData.length = 32) (keyXorVal : Nat) {k : Nat} (hk : k < 32) :
    (encryptKnock key knockData keyXorVal).reqKnockVal k = (knockData.getD k 0).toNat := by
  have hj : k % 8 < 8 := Nat.mod_lt k (by decide)
  have hquarter : (encryptKnock key knockData keyXorVal).knockVals.getD (k / 8) 0 =
      word ((knockData.drop (8 * (k / 8))).take 8) ^^^ word key := by
    rw [encryptKnock, List.getD_eq_getElem _ _ (by simp; omega), List.getElem_map,
      List.getElem_range]
  have hlen : ((knockData.drop (8 * (k / 8))).take 8).length = 8 := by
    rw [List.length_take, List.length_drop]
    omega
  have hchar : ((knockData.drop (8 * (k / 8))).take 8).getD (k % 8) 0 = knockData.getD k 0 := by
    rw [List.getD_eq_getElem _ _ (by omega), List.getElem_take, List.getElem_drop,
      List.getD_eq_getElem _ _ (by omega)]
    simp only [Nat.div_add_mod]
  have hkeyXor : PackedBytes.get (encryptKnock key knockData keyXorVal).keyXor (7 - k % 8) =
      PackedBytes.get (word key) (7 - k % 8) ^^^ (keyXorVal >>> (k % 8 * 8) &&& 0xff) := by
    have hfold := get_keyXor keyXorVal (word key) (Nat.le_of_eq hkey) hj
    rwa [if_pos (by rwa [hkey])] at hfold
  have hknockXor : (encryptKnock key knockData keyXorVal).knockXor = keyXorVal := rfl
  -- the character of the key and the byte of the mask both come twice
  rw [Knocks.reqKnockVal, hquarter, hknockXor, byte_top _ hj, get_mix, get_mix, hkeyXor,
    get_word_top hlen hj, hchar, Nat.xor_assoc (knockData.getD k 0).toNat, ← Nat.xor_assoc
      (PackedBytes.get (word key) (7 - k % 8)), Nat.xor_self, Nat.zero_xor, Nat.xor_assoc,
    Nat.xor_self, Nat.xor_zero]

/-- What the module asks for is the text of the server. -/
theorem defcon_reqKnockVal {k : Nat} (hk : k < 32) :
    Knocks.defcon.reqKnockVal k = decryptXorKey[k].toNat := by
  have hlen : decryptXorKey.toList.length = 32 := Vector.length_toList
  have h := @encryptKnock_reqKnockVal cLEMENCy decryptXorKey.toList rfl hlen 0x657c4c8663f1749f k hk
  rwa [encryptKnock_defcon, List.getD_eq_getElem _ _ (by rwa [hlen]), Vector.getElem_toList] at h

/-! ## The module -/

/-- `FlagData`. -/
abbrev Flag := Vector UInt8 128

/-- The globals. -/
structure Globals where
  flagData : Flag
  decKey : Key
  decIV : Block
  initialRead : Nat
  initialWrite : Nat
  knockCount : Nat
  deriving DecidableEq

/-- `defcon_2017_init`. -/
def init (flagData : Flag) : Globals where
  flagData := flagData
  decKey := Vector.replicate 32 0
  decIV := Vector.replicate 16 0
  initialRead := 0
  initialWrite := 0
  knockCount := 0

/-- The three `memset`s. -/
def Globals.wipe (s : Globals) : Globals :=
  { s with
    flagData := Vector.replicate 128 0
    decIV := Vector.replicate 16 0
    decKey := Vector.replicate 32 0 }

/-- A call of the module, with the bytes it copies in. -/
inductive Call
  | read (count : Nat)
  | write (buf : List UInt8)
  | ioctl (cmd : Nat)
  deriving DecidableEq

/-- What a call returns, and the bytes it copies out. -/
structure Reply where
  ret : Int
  out : List UInt8
  deriving DecidableEq

/-- `-EINVAL`. -/
def einval : Int := -22

/-- `_IO('z', nr)`. -/
def ioZ (nr : Nat) : Nat := 122 <<< 8 ||| nr

/-- `REQ_KNOCKS`. -/
def reqKnocks : Nat := 32

section Calls

variable (c : Cipher) (readSize : Nat)

/-- `defcon_2017_write`. -/
def write (s : Globals) (buf : List UInt8) : Globals × Reply :=
  if buf.length = 16 ∧ s.initialWrite = 0 then
    ({ s with decIV := window 0 16 buf, initialWrite := s.initialWrite + 1 }, ⟨buf.length, []⟩)
  else if buf.length = 32 ∧ s.initialWrite = 1 then
    ({ s with decKey := window 0 32 buf, initialWrite := s.initialWrite + 1 }, ⟨buf.length, []⟩)
  else (s.wipe, ⟨einval, []⟩)

/-- `defcon_2017_read`. `readSize` is what `GetReadSize` returns. -/
def read (s : Globals) (count : Nat) : Globals × Reply :=
  if s.initialRead = 0 then
    let s := { s with initialRead := 1 }
    if count ≠ readSize then (s.wipe, ⟨einval, []⟩)
    else (s, ⟨count, s.flagData.toList.take count⟩)
  else if s.knockCount ≠ reqKnocks ∨ s.initialWrite ≠ 2 then (s.wipe, ⟨einval, []⟩)
  else if count ≠ 128 then (s.wipe, ⟨einval, []⟩)
  else (s.wipe, ⟨count, (c.iDec256CBC s.decKey s.decIV (128 >>> 4) s.flagData.toList).1⟩)

/-- `defcon_2017_ioctl`. -/
def ioctl (s : Globals) (cmd : Nat) : Globals × Reply :=
  if s.initialWrite ≠ 2 ∨ s.knockCount ≥ reqKnocks then (s.wipe, ⟨einval, []⟩)
  else
    let reqKnockVal := Knocks.defcon.reqKnockVal s.knockCount
    let unmasked := s.decKey.getD s.knockCount 0 ^^^ UInt8.ofNat reqKnockVal
    let s := { s with decKey := s.decKey.setIfInBounds s.knockCount unmasked }
    if cmd ≠ ioZ reqKnockVal then (s.wipe, ⟨0, []⟩)
    else ({ s with knockCount := s.knockCount + 1 }, ⟨0, []⟩)

/-- A call. -/
def step (s : Globals) : Call → Globals × Reply
  | .read count => read c readSize s count
  | .write buf => write s buf
  | .ioctl cmd => ioctl s cmd

/-- The module after calls. -/
def run (s : Globals) (calls : List Call) : Globals :=
  calls.foldl (fun s call => (step c readSize s call).1) s

/-- The replies to calls. -/
def replies : Globals → List Call → List Reply
  | _, [] => []
  | s, call :: calls => (step c readSize s call).2 :: replies (step c readSize s call).1 calls

end Calls

/-! ## What the flag depends on -/

/-- A call of `defcon_2017_read`. -/
def Call.isRead : Call → Bool
  | .read _ => true
  | _ => false

/-- The reads of a run. -/
def reads (calls : List Call) : List Call := calls.filter Call.isRead

/-- The other calls of a run. -/
def others (calls : List Call) : List Call := calls.filter fun call => !call.isRead

/-- What the module waits for after so many calls other than reads. -/
def Expected : Nat → Call → Prop
  | 0, call => ∃ buf, call = .write buf ∧ buf.length = 16
  | 1, call => ∃ buf, call = .write buf ∧ buf.length = 32
  | knockCount + 2, call =>
    knockCount < reqKnocks ∧ call = .ioctl (ioZ (Knocks.defcon.reqKnockVal knockCount))

/-- The calls so far are those that the module waits for. -/
def Promised (readSize : Nat) (calls : List Call) : Prop :=
  (reads calls = [] ∨ reads calls = [.read readSize]) ∧
    ∀ w call, (others calls)[w]? = some call → Expected w call

/-- The first read, the IV, the key and all knocks. -/
def Authorized (readSize : Nat) (calls : List Call) : Prop :=
  Promised readSize calls ∧ (reads calls).length = 1 ∧ (others calls).length = 2 + reqKnocks

/-- The flag is whole, and the counters count the calls. -/
structure Kept (readSize : Nat) (F : Flag) (calls : List Call) (s : Globals) : Prop where
  promised : Promised readSize calls
  flag : s.flagData = F
  read : s.initialRead = (reads calls).length
  write : s.initialWrite = min 2 (others calls).length
  knock : s.knockCount = (others calls).length - 2

section

variable {c : Cipher} {readSize : Nat} {F : Flag} {calls : List Call} {s : Globals}

theorem reads_concat (calls : List Call) (call : Call) :
    reads (calls ++ [call]) = reads calls ++ if call.isRead then [call] else [] := by
  simp only [reads, List.filter_append, List.filter_singleton]
  split <;> simp_all

theorem others_concat (calls : List Call) (call : Call) :
    others (calls ++ [call]) = others calls ++ if call.isRead then [] else [call] := by
  simp only [others, List.filter_append, List.filter_singleton]
  split <;> simp_all

/-- One more call is what the module waits for. -/
theorem promised_concat (call : Call) : Promised readSize (calls ++ [call]) ↔
    Promised readSize calls ∧ if call.isRead then reads calls = [] ∧ call = .read readSize
      else Expected (others calls).length call := by
  simp only [Promised, reads_concat, others_concat]
  cases hread : call.isRead with
  | true =>
    have hone : reads calls ++ [call] = [.read readSize] ↔
        reads calls = [] ∧ call = .read readSize := by
      simp [List.append_eq_singleton_iff]
    simp only [if_true, List.append_nil, List.append_eq_nil_iff, List.cons_ne_nil, and_false,
      false_or, hone]
    tauto
  | false =>
    simp only [Bool.false_eq_true, if_false, List.append_nil]
    refine ⟨fun ⟨hr, ho⟩ => ⟨⟨hr, fun w call' hw => ho w call' ?_⟩, ho _ _ ?_⟩,
      fun ⟨⟨hr, ho⟩, hnew⟩ => ⟨hr, fun w call' hw => ?_⟩⟩
    · rw [List.getElem?_append_left (List.getElem?_eq_some_iff.mp hw).1, hw]
    · simp
    · rcases Nat.lt_trichotomy w (others calls).length with hlt | heq | hgt
      · exact ho w call' (by rwa [List.getElem?_append_left hlt] at hw)
      · subst heq
        rw [List.getElem?_concat_length] at hw
        rwa [← Option.some.inj hw]
      · rw [List.getElem?_eq_none (by simp; omega)] at hw
        cases hw

/-- A wiped flag stays wiped. -/
theorem step_wiped (call : Call) (h : s.flagData = Vector.replicate 128 0) :
    (step c readSize s call).1.flagData = Vector.replicate 128 0 := by
  cases call with
  | read count =>
    simp only [step, read]
    split_ifs <;> first | exact h | rfl
  | write buf =>
    simp only [step, write]
    split_ifs <;> first | exact h | rfl
  | ioctl cmd =>
    simp only [step, ioctl]
    split_ifs <;> first | exact h | rfl

/-- **A call that the module waits for** keeps the flag. -/
theorem step_grant (h : Kept readSize F calls s) {call : Call}
    (hcall : Promised readSize (calls ++ [call])) :
    Kept readSize F (calls ++ [call]) (step c readSize s call).1 := by
  have hnew := ((promised_concat call).mp hcall).2
  obtain ⟨-, hflag, hread, hwrite, hknock⟩ := h
  cases call with
  | read count =>
    obtain ⟨hnone, rfl⟩ : reads calls = [] ∧ count = readSize := by simpa [Call.isRead] using hnew
    rw [hnone, List.length_nil] at hread
    refine ⟨hcall, ?_, ?_, ?_, ?_⟩ <;>
      simp [step, read, hread, reads_concat, others_concat, Call.isRead, hflag, hwrite, hknock,
        hnone]
  | write buf =>
    rcases hn : (others calls).length with _ | _ | knockCount
    · obtain ⟨buf', hbuf, hlen⟩ : Expected 0 (.write buf) := by
        simpa [Call.isRead, hn] using hnew
      obtain rfl := Call.write.inj hbuf
      have hzero : s.initialWrite = 0 := by simp [hwrite, hn]
      refine ⟨hcall, ?_, ?_, ?_, ?_⟩ <;>
        simp [step, write, hlen, hzero, reads_concat, others_concat, Call.isRead, hflag, hread,
          hknock, hn]
    · obtain ⟨buf', hbuf, hlen⟩ : Expected 1 (.write buf) := by
        simpa [Call.isRead, hn] using hnew
      obtain rfl := Call.write.inj hbuf
      have hone : s.initialWrite = 1 := by simp [hwrite, hn]
      refine ⟨hcall, ?_, ?_, ?_, ?_⟩ <;>
        simp [step, write, hlen, hone, reads_concat, others_concat, Call.isRead, hflag, hread,
          hknock, hn]
    · have hexp : Expected (knockCount + 2) (.write buf) := by
        simpa [Call.isRead, hn] using hnew
      cases hexp.2
  | ioctl cmd =>
    rcases hn : (others calls).length with _ | _ | knockCount
    · obtain ⟨_, hbuf, _⟩ : Expected 0 (.ioctl cmd) := by simpa [Call.isRead, hn] using hnew
      cases hbuf
    · obtain ⟨_, hbuf, _⟩ : Expected 1 (.ioctl cmd) := by simpa [Call.isRead, hn] using hnew
      cases hbuf
    · obtain ⟨hlt, hcmd⟩ : Expected (knockCount + 2) (.ioctl cmd) := by
        simpa [Call.isRead, hn] using hnew
      obtain rfl := Call.ioctl.inj hcmd
      have htwo : s.initialWrite = 2 := by simp [hwrite, hn]
      have hcount : s.knockCount = knockCount := by simp [hknock, hn]
      refine ⟨hcall, ?_, ?_, ?_, ?_⟩ <;>
        simp [step, ioctl, htwo, hcount, Nat.not_le.mpr hlt, reads_concat, others_concat,
          Call.isRead, hflag, hread, hn]

/-- **Any other call** wipes the flag. -/
theorem step_refuse (h : Kept readSize F calls s) {call : Call}
    (hcall : ¬ Promised readSize (calls ++ [call])) :
    (step c readSize s call).1.flagData = Vector.replicate 128 0 := by
  have hnew := fun hnew => hcall ((promised_concat call).mpr ⟨h.promised, hnew⟩)
  obtain ⟨-, hflag, hread, hwrite, hknock⟩ := h
  cases call with
  | read count =>
    simp only [step, read]
    split_ifs with hfirst hcount hearly hsize
    · rfl
    · refine absurd ?_ hnew
      have hnone : reads calls = [] := List.eq_nil_of_length_eq_zero (hread ▸ hfirst)
      exact ⟨hnone, congrArg Call.read (Classical.not_not.mp hcount)⟩
    all_goals rfl
  | write buf =>
    simp only [step, write]
    split_ifs with hiv hkey
    · have hn : (others calls).length = 0 := by omega
      exact absurd (show Expected (others calls).length _ from hn ▸ ⟨buf, rfl, hiv.1⟩) hnew
    · have hn : (others calls).length = 1 := by omega
      exact absurd (show Expected (others calls).length _ from hn ▸ ⟨buf, rfl, hkey.1⟩) hnew
    · rfl
  | ioctl cmd =>
    simp only [step, ioctl]
    split_ifs with hearly hcmd
    · rfl
    · rfl
    · rw [not_or, Nat.not_le] at hearly
      have hn : (others calls).length = s.knockCount + 2 := by omega
      have hcmd := congrArg Call.ioctl (Classical.not_not.mp hcmd)
      exact absurd (show Expected (others calls).length _ from hn ▸ ⟨hearly.2, hcmd⟩) hnew

/-- The calls of a run so far are those that were waited for, or the flag is gone. -/
theorem run_kept_or_wiped (F : Flag) (calls : List Call) :
    (Promised readSize calls → Kept readSize F calls (run c readSize (init F) calls)) ∧
      (¬ Promised readSize calls →
        (run c readSize (init F) calls).flagData = Vector.replicate 128 0) := by
  induction calls using List.reverseRecOn with
  | nil =>
    have hnil : Promised readSize [] := ⟨.inl rfl, fun w call h => by simp [others] at h⟩
    exact ⟨fun h => ⟨h, rfl, rfl, rfl, rfl⟩, fun h => absurd hnil h⟩
  | append_singleton calls call ih =>
    have hrun : run c readSize (init F) (calls ++ [call]) =
        (step c readSize (run c readSize (init F) calls) call).1 := by
      rw [run, List.foldl_append]
      rfl
    rw [hrun]
    refine ⟨fun h => step_grant (ih.1 ((promised_concat call).mp h).1) h, fun h => ?_⟩
    by_cases hcalls : Promised readSize calls
    · exact step_refuse (ih.1 hcalls) h
    · exact step_wiped call (ih.2 hcalls)

/-! ## What a reader can tell -/

/-- Two modules that differ in the flag alone, and there behind the first bytes. -/
def Apart (readSize : Nat) (s s' : Globals) : Prop :=
  s' = { s with flagData := s'.flagData } ∧
    s.flagData.toList.take readSize = s'.flagData.toList.take readSize

/-- The call that is answered with the flag. -/
def Releases (s : Globals) (call : Call) : Prop :=
  call = .read 128 ∧ s.initialRead ≠ 0 ∧ s.knockCount = reqKnocks ∧ s.initialWrite = 2

variable {s' : Globals}

/-- They stay so. -/
theorem Apart.step (h : Apart readSize s s') (call : Call) :
    Apart readSize (step c readSize s call).1 (step c readSize s' call).1 := by
  obtain ⟨hs, htake⟩ := h
  rw [hs]
  cases call with
  | read count =>
    simp only [Device.step, read]
    split_ifs <;> first | exact ⟨rfl, htake⟩ | exact ⟨rfl, rfl⟩
  | write buf =>
    simp only [Device.step, write]
    split_ifs <;> first | exact ⟨rfl, htake⟩ | exact ⟨rfl, rfl⟩
  | ioctl cmd =>
    simp only [Device.step, ioctl]
    split_ifs <;> first | exact ⟨rfl, htake⟩ | exact ⟨rfl, rfl⟩

/-- **No other call tells them apart.** -/
theorem Apart.reply (h : Apart readSize s s') {call : Call} (hcall : ¬ Releases s call) :
    (Device.step c readSize s call).2 = (Device.step c readSize s' call).2 := by
  obtain ⟨hs, htake⟩ := h
  rw [hs]
  cases call with
  | read count =>
    simp only [Device.step, read]
    split_ifs with hfirst hcount hearly hsize
    · rfl
    · rw [Classical.not_not.mp hcount, htake]
    · rfl
    · rfl
    · rw [not_or, Classical.not_not, Classical.not_not] at hearly
      exact absurd ⟨congrArg Call.read (Classical.not_not.mp hsize), hfirst, hearly⟩ hcall
  | write buf =>
    simp only [Device.step, write]
    split_ifs <;> rfl
  | ioctl cmd =>
    simp only [Device.step, ioctl]
    split_ifs <;> rfl

theorem Apart.run (h : Apart readSize s s') (calls : List Call) :
    Apart readSize (run c readSize s calls) (Device.run c readSize s' calls) := by
  induction calls generalizing s s' with
  | nil => exact h
  | cons call calls ih => exact ih (h.step call)

/-- Where the reading call comes too early, nobody can tell. -/
theorem replies_apart {F F' : Flag} : ∀ {after before : List Call},
    (∀ b a, before ++ after = b ++ .read 128 :: a → ¬ Authorized readSize b) →
    Apart readSize (run c readSize (init F) before) (run c readSize (init F') before) →
    replies c readSize (run c readSize (init F) before) after =
      replies c readSize (run c readSize (init F') before) after
  | [], _, _, _ => rfl
  | call :: after, before, hno, h => by
    have hstep (F : Flag) : (Device.step c readSize (run c readSize (init F) before) call).1 =
        run c readSize (init F) (before ++ [call]) := by
      rw [run, run, List.foldl_append]
      rfl
    have hnext : Apart readSize (run c readSize (init F) (before ++ [call]))
        (run c readSize (init F') (before ++ [call])) := by
      rw [← hstep F, ← hstep F']
      exact h.step call
    have hrest := replies_apart
      (fun b a hsplit => hno b a (by rw [← hsplit, List.append_assoc, List.singleton_append])) hnext
    rw [replies, replies, hstep, hstep, hrest]
    congr 1
    by_cases hrel : Releases (run c readSize (init F) before) call
    · obtain ⟨rfl, hread, hknock, hwrite⟩ := hrel
      by_cases hpromised : Promised readSize before
      · refine absurd ⟨hpromised, ?_, ?_⟩ (hno before after rfl)
        · have hkept := ((run_kept_or_wiped (c := c) F before).1 hpromised).read
          rcases hpromised.1 with hnone | hone
          · rw [hnone] at hkept
            exact absurd hkept hread
          · rw [hone]
            rfl
        · have hkept := ((run_kept_or_wiped (c := c) F before).1 hpromised).knock
          have hpos : reqKnocks = 32 := rfl
          omega
      · -- both flags are gone
        have hwiped := (run_kept_or_wiped (c := c) F before).2 hpromised
        have hwiped' := (run_kept_or_wiped (c := c) F' before).2 hpromised
        rw [h.1, hwiped', ← hwiped]
    · exact h.reply hrel

theorem run_append (s : Globals) (calls calls' : List Call) :
    run c readSize s (calls ++ calls') = run c readSize (run c readSize s calls) calls' :=
  List.foldl_append

theorem replies_append (s : Globals) (calls calls' : List Call) :
    replies c readSize s (calls ++ calls') =
      replies c readSize s calls ++ replies c readSize (run c readSize s calls) calls' := by
  induction calls generalizing s with
  | nil => rfl
  | cons call calls ih => exact congrArg _ (ih _)

theorem replies_length (s : Globals) (calls : List Call) :
    (replies c readSize s calls).length = calls.length := by
  induction calls generalizing s with
  | nil => rfl
  | cons call calls ih => exact congrArg (· + 1) (ih _)

/-- What the module answers with the flag. -/
theorem Kept.release (h : Kept readSize F calls s) (hcalls : Authorized readSize calls) :
    (Device.read c readSize s 128).2 =
      ⟨128, (c.iDec256CBC s.decKey s.decIV 8 F.toList).1⟩ := by
  obtain ⟨-, hr, ho⟩ := hcalls
  have hread : s.initialRead = 1 := h.read.trans hr
  have hwrite : s.initialWrite = 2 := by
    rw [h.write, ho]
    rfl
  have hknock : s.knockCount = reqKnocks := by
    rw [h.knock, ho]
    rfl
  simp [Device.read, hread, hwrite, hknock, h.flag]

end

/-- There are finitely many blocks. -/
theorem finite_block : Finite Block := by
  have hbyte : Finite UInt8 := Finite.of_injective UInt8.toFin fun a b h => UInt8.toFin_inj.mp h
  refine Finite.of_injective (fun (b : Block) (i : Fin 16) => b[i]) fun a b h => ?_
  exact Vector.ext fun i hi => congrFun h ⟨i, hi⟩

/-- A block cipher is onto. -/
theorem enc_dec (c : Cipher) (k : Key) (b : Block) : c.enc k (c.dec k b) = b := by
  have hfinite := finite_block
  have hinj : Function.Injective (c.enc k) := Function.LeftInverse.injective (c.dec_enc k)
  obtain ⟨a, ha⟩ := Finite.surjective_of_injective hinj b
  rw [← ha, c.dec_enc]

/-- Different flags are deciphered differently. -/
theorem iDec256CBC_injective (c : Cipher) (k : Key) (iv : Block) {n : Nat} {data data' : List UInt8}
    (hlen : data.length = n * 16) (hlen' : data'.length = n * 16)
    (h : (c.iDec256CBC k iv n data).1 = (c.iDec256CBC k iv n data').1) : data = data' := by
  have hback {data : List UInt8} (hlen : data.length = n * 16) :
      data = flat ((c.chain k).encrypt iv (chunks 0 16 n (c.iDec256CBC k iv n data).1)).1 := by
    have hn : ((c.chain k).decrypt iv (chunks 0 16 n data)).1.length = n := by
      rw [Cbc.Chain.decrypt_length, chunks_length]
    have hcut := chunks_flat (0 : UInt8) ((c.chain k).decrypt iv (chunks 0 16 n data)).1 []
    rw [hn, List.append_nil] at hcut
    rw [Cipher.iDec256CBC, hcut, Cbc.Chain.encrypt_decrypt _ (enc_dec c k), flat_chunks _ hlen]
  rw [hback hlen, hback hlen', h]

/-- **The replies tell more than the first bytes of the flag exactly where** the first read, the
two writes and the 32 knocks come before a read of the flag. -/
theorem leaks_iff (c : Cipher) {readSize : Nat} (hsize : readSize < 128) (calls : List Call) :
    (∃ F F' : Flag, F.toList.take readSize = F'.toList.take readSize ∧
      replies c readSize (init F) calls ≠ replies c readSize (init F') calls) ↔
    ∃ before after, calls = before ++ .read 128 :: after ∧ Authorized readSize before := by
  constructor
  · rintro ⟨F, F', htake, hne⟩
    by_contra hno
    have hinit : Apart readSize (run c readSize (init F) []) (run c readSize (init F') []) :=
      ⟨rfl, htake⟩
    have hearly : ∀ b a, [] ++ calls = b ++ .read 128 :: a → ¬ Authorized readSize b :=
      fun b a hsplit hb => hno ⟨b, a, hsplit, hb⟩
    exact hne (replies_apart hearly hinit)
  · rintro ⟨before, after, rfl, hbefore⟩
    let F : Flag := Vector.replicate 128 0
    let F' : Flag := F.set 127 1
    have htake : F.toList.take readSize = F'.toList.take readSize := by
      rw [Vector.toList_set, List.take_set_of_le (by omega)]
    refine ⟨F, F', htake, fun heq => ?_⟩
    rw [replies_append, replies_append, replies, replies] at heq
    have hlen : (replies c readSize (init F) before).length =
        (replies c readSize (init F') before).length := by
      rw [replies_length, replies_length]
    have hhead := (List.cons.inj (List.append_inj_right heq hlen)).1
    have happart : Apart readSize (run c readSize (init F) before)
        (run c readSize (init F') before) := Apart.run ⟨rfl, htake⟩ before
    have hF := ((run_kept_or_wiped (c := c) F before).1 hbefore.1).release (c := c) hbefore
    have hF' := ((run_kept_or_wiped (c := c) F' before).1 hbefore.1).release (c := c) hbefore
    have hsame :
        (run c readSize (init F') before).decKey = (run c readSize (init F) before).decKey ∧
          (run c readSize (init F') before).decIV = (run c readSize (init F) before).decIV := by
      rw [happart.1]
      exact ⟨rfl, rfl⟩
    rw [step, step, hF, hF', hsame.1, hsame.2] at hhead
    have hdata := iDec256CBC_injective c _ _ (Vector.length_toList) (Vector.length_toList)
      (congrArg Reply.out hhead)
    have hlast : F[127] = F'[127] := congrArg (·[127]) (Vector.toList_inj.mp hdata)
    simp [F, F'] at hlast

/-- A right beginning with one wrong read, under the read size of a test build. -/
theorem leaks_iff_early : (∃ F F' : Flag, F.toList.take 11 = F'.toList.take 11 ∧
      replies toyCipher 11 (init F) [.read 11, .read 128] ≠
        replies toyCipher 11 (init F') [.read 11, .read 128]) ↔
    ∃ before after, [.read 11, .read 128] = before ++ .read 128 :: after ∧ Authorized 11 before :=
  leaks_iff toyCipher (by decide) [.read 11, .read 128]

end Quals2017.Liberty.Device
