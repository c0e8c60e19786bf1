import Mathlib.Algebra.Order.Ring.Nat
import Mathlib.Algebra.BigOperators.Group.List.Basic
import Mathlib.Order.Nat
import Quals2017.Lib.Outcome

/-!
# The download buffer (`Leo/leo.c:25-56`, `:91-100`)

`WriteMemoryCallback` puts what it is handed behind what is there, and a zero behind that. It
refuses what is longer than the room left, so that what fills the buffer is accepted, and its zero
lies behind the end.

* `MemoryStruct` carries `current ≤ size` and the length of the allocated block.
* `download`: the callback on one chunk after the other. A write outside of the block is `outside`.
* `accepted`: the chunks that fit the room that those before have left.
* **`download_safe_iff`**: every write is inside, and the block holds the accepted chunks and their
  terminator, exactly when these leave a byte.
-/

namespace Quals2017.Leo

open Quals2017.Lib

/-- A block of `n` bytes. -/
abbrev Block (n : Nat) := { l : List UInt8 // l.length = n }

/-- `struct MemoryStruct`: `memory` is a block of `size` bytes. -/
structure MemoryStruct (size : UInt64) where
  memory : Block size.toNat
  current : UInt64
  current_le : current.toNat ≤ size.toNat

/-- A write outside of the block. -/
inductive Fault where
  | outside
  deriving DecidableEq

/-- What curl hands to the callback: `nmemb` times `size` bytes. -/
structure Delivery where
  contents : List UInt8
  size : UInt64
  nmemb : UInt64
  length_eq : contents.length = (size * nmemb).toNat

/-- The bytes written from `start` on, when they lie inside the block. -/
def overwrite {n : Nat} (memory : Block n) (start : Nat) (bytes : List UInt8) :
    Except Fault (Block n) :=
  if h : start + bytes.length ≤ n then
    .ok ⟨memory.1.take start ++ bytes ++ memory.1.drop (start + bytes.length), by
      simp only [List.length_append, List.length_take, List.length_drop, memory.2]
      omega⟩
  else .error .outside

theorem advance_le {size current realsize : UInt64} (hc : current.toNat ≤ size.toNat)
    (h : ¬ realsize > size - current) :
    (current + realsize).toNat = current.toNat + realsize.toNat ∧
      (current + realsize).toNat ≤ size.toNat := by
  have hle := UInt64.le_iff_toNat_le.mp (UInt64.not_lt.mp h)
  rw [UInt64.toNat_sub_of_le _ _ (UInt64.le_iff_toNat_le.mpr hc)] at hle
  have hlt := size.toNat_lt
  rw [UInt64.toNat_add]
  omega

/-- `WriteMemoryCallback`: how many bytes it has taken, and the struct. -/
def writeMemoryCallback {size : UInt64} (chunk : Delivery) (mem : MemoryStruct size) :
    Except Fault (UInt64 × MemoryStruct size) :=
  let realsize := chunk.size * chunk.nmemb
  if h : realsize > size - mem.current then .ok (0, mem)
  else do
    let memory ← overwrite mem.memory mem.current.toNat chunk.contents
    let current := mem.current + realsize
    let memory ← overwrite memory current.toNat [0]
    .ok (realsize, ⟨memory, current, (advance_le mem.current_le h).2⟩)

/-- The callback on one chunk after the other. -/
def download {size : UInt64} (chunks : List Delivery) (mem : MemoryStruct size) :
    Except Fault (MemoryStruct size) :=
  chunks.foldlM (fun mem chunk => (writeMemoryCallback chunk mem).map Prod.snd) mem

/-- The struct before the download: nothing of the block is in use. -/
def fresh {size : UInt64} (memory : Block size.toNat) : MemoryStruct size :=
  ⟨memory, 0, Nat.zero_le _⟩

/-! ## What is accepted -/

/-- The chunks that fit, with so much room left. -/
def accepted : Nat → List Delivery → List Delivery
  | _, [] => []
  | room, chunk :: chunks =>
    if chunk.contents.length ≤ room then
      chunk :: accepted (room - chunk.contents.length) chunks
    else accepted room chunks

/-- The bytes of some chunks. -/
def total (chunks : List Delivery) : Nat := (chunks.map (·.contents.length)).sum

theorem total_cons (chunk : Delivery) (chunks : List Delivery) :
    total (chunk :: chunks) = chunk.contents.length + total chunks := by
  simp [total]

theorem total_accepted_le : ∀ (room : Nat) (chunks : List Delivery),
    total (accepted room chunks) ≤ room
  | _, [] => Nat.zero_le _
  | room, chunk :: chunks => by
    rw [accepted]
    split_ifs with h
    · have ih := total_accepted_le (room - chunk.contents.length) chunks
      rw [total_cons]
      omega
    · exact total_accepted_le room chunks

/-! ## One chunk -/

theorem overwrite_ok {n : Nat} {memory memory' : Block n} {start : Nat} {bytes : List UInt8}
    (h : overwrite memory start bytes = .ok memory') :
    memory'.1.take (start + bytes.length) = memory.1.take start ++ bytes ∧
      memory'.1.take start = memory.1.take start := by
  unfold overwrite at h
  split_ifs at h with hle
  have hstart : (memory.1.take start).length = start := by
    rw [List.length_take, memory.2]
    omega
  rw [← Except.ok.inj h]
  constructor
  · simp only
    rw [List.take_left' (by rw [List.length_append, hstart])]
  · simp only [List.append_assoc]
    rw [List.take_left' hstart]

theorem overwrite_one {n : Nat} {memory memory' : Block n} {start : Nat} {b : UInt8}
    (h : overwrite memory start [b] = .ok memory') : memory'.1[start]? = some b := by
  unfold overwrite at h
  split_ifs at h with hle
  have hstart : (memory.1.take start).length = start := by
    rw [List.length_take, memory.2]
    rw [List.length_singleton] at hle
    omega
  rw [← Except.ok.inj h]
  simp only [List.append_assoc]
  rw [List.getElem?_append_right hstart.le, hstart, Nat.sub_self]
  rfl

/-- The room left. -/
def MemoryStruct.room {size : UInt64} (mem : MemoryStruct size) : Nat :=
  size.toNat - mem.current.toNat

/-- What a step that has accepted these bytes leaves: the bytes behind those before, and a zero. -/
structure Took {size : UInt64} (mem mem' : MemoryStruct size) (bytes : List UInt8) : Prop where
  current : mem'.current.toNat = mem.current.toNat + bytes.length
  content : mem'.memory.1.take mem'.current.toNat =
    mem.memory.1.take mem.current.toNat ++ bytes
  terminator : mem'.memory.1[mem'.current.toNat]? = some 0

/-- **One chunk**: one that is too long is refused, one that leaves room is taken, and the zero of
one that leaves none lies outside. -/
theorem writeMemoryCallback_cases {size : UInt64} (chunk : Delivery) (mem : MemoryStruct size) :
    if mem.room < chunk.contents.length then writeMemoryCallback chunk mem = .ok (0, mem)
    else if chunk.contents.length = mem.room then
      writeMemoryCallback chunk mem = .error .outside
    else ∃ mem', writeMemoryCallback chunk mem = .ok (chunk.size * chunk.nmemb, mem') ∧
      Took mem mem' chunk.contents := by
  have hlen := chunk.length_eq
  have hfull : chunk.size * chunk.nmemb > size - mem.current ↔
      mem.room < chunk.contents.length := by
    rw [gt_iff_lt, UInt64.lt_iff_toNat_lt,
      UInt64.toNat_sub_of_le _ _ (UInt64.le_iff_toNat_le.mpr mem.current_le), hlen]
    rfl
  unfold writeMemoryCallback
  by_cases hlong : mem.room < chunk.contents.length
  · rw [if_pos hlong]
    exact dif_pos (hfull.mpr hlong)
  · have hfits := hfull.not.mpr hlong
    obtain ⟨hadd, hle⟩ := advance_le mem.current_le hfits
    rw [← hlen] at hadd
    have hroom : mem.room = size.toNat - mem.current.toNat := rfl
    have hcur := mem.current_le
    rw [if_neg hlong]
    simp only [dif_neg hfits]
    obtain ⟨memory₁, h₁⟩ : ∃ memory₁, overwrite mem.memory mem.current.toNat chunk.contents =
        .ok memory₁ := ⟨_, dif_pos (by omega)⟩
    rw [h₁, ok_bind]
    split_ifs with hexact
    · have hout : overwrite memory₁ (mem.current + chunk.size * chunk.nmemb).toNat [0] =
          .error .outside := dif_neg (by rw [hadd, List.length_singleton]; omega)
      rw [hout]
      rfl
    · obtain ⟨memory₂, h₂⟩ : ∃ memory₂,
          overwrite memory₁ (mem.current + chunk.size * chunk.nmemb).toNat [0] = .ok memory₂ :=
        ⟨_, dif_pos (by rw [hadd, List.length_singleton]; omega)⟩
      rw [h₂, ok_bind]
      refine ⟨_, rfl, hadd, ?_, ?_⟩
      · simp only
        rw [(overwrite_ok h₂).2, hadd, (overwrite_ok h₁).1]
      · exact overwrite_one h₂

/-! ## The download -/

/-- What a download that has accepted these chunks leaves. -/
structure Downloaded {size : UInt64} (chunks : List Delivery) (mem mem' : MemoryStruct size) :
    Prop where
  current : mem'.current.toNat = mem.current.toNat + total chunks
  content : mem'.memory.1.take mem'.current.toNat =
    mem.memory.1.take mem.current.toNat ++ chunks.flatMap (·.contents)
  terminator : chunks ≠ [] → mem'.memory.1[mem'.current.toNat]? = some 0
  unchanged : chunks = [] → mem' = mem

/-- An accepted chunk, and those behind it. -/
theorem Took.downloaded {size : UInt64} {mem mem₁ mem' : MemoryStruct size} {chunk : Delivery}
    {chunks : List Delivery} (h : Took mem mem₁ chunk.contents)
    (h' : Downloaded chunks mem₁ mem') : Downloaded (chunk :: chunks) mem mem' where
  current := by rw [h'.current, h.current, total_cons, Nat.add_assoc]
  content := by rw [h'.content, h.content, List.flatMap_cons, List.append_assoc]
  terminator := by
    intro _
    cases chunks with
    | nil =>
      rw [h'.unchanged rfl]
      exact h.terminator
    | cons => exact h'.terminator (by simp)
  unchanged := nofun

theorem download_cons {size : UInt64} (chunk : Delivery) (chunks : List Delivery)
    (mem : MemoryStruct size) : download (chunk :: chunks) mem =
      (writeMemoryCallback chunk mem).map Prod.snd >>= download chunks := by
  unfold download
  rw [List.foldlM_cons]

/-- **A download from a block with room left**: it writes outside exactly when what it accepts fills
the block. -/
theorem download_cases {size : UInt64} : ∀ (chunks : List Delivery) (mem : MemoryStruct size),
    0 < mem.room → if total (accepted mem.room chunks) < mem.room then
      ∃ mem', download chunks mem = .ok mem' ∧ Downloaded (accepted mem.room chunks) mem mem'
    else download chunks mem = .error .outside
  | [], mem, hpos => by
    rw [accepted, if_pos (show total [] < mem.room from hpos)]
    exact ⟨mem, rfl, rfl, by simp, fun h => absurd rfl h, fun _ => rfl⟩
  | chunk :: chunks, mem, hpos => by
    have hcases := writeMemoryCallback_cases chunk mem
    rw [download_cons, accepted]
    by_cases hlong : mem.room < chunk.contents.length
    · rw [if_pos hlong] at hcases
      rw [hcases, if_neg (Nat.not_le.mpr hlong)]
      exact download_cases chunks mem hpos
    · rw [if_neg hlong] at hcases
      rw [if_pos (Nat.not_lt.mp hlong), total_cons]
      by_cases hexact : chunk.contents.length = mem.room
      · rw [if_pos hexact] at hcases
        rw [hcases, if_neg (by omega)]
        rfl
      · rw [if_neg hexact] at hcases
        obtain ⟨mem₁, hok, htook⟩ := hcases
        have hroom : mem₁.room = mem.room - chunk.contents.length := by
          unfold MemoryStruct.room
          rw [htook.current]
          omega
        have ih := download_cases chunks mem₁ (by omega)
        rw [hok, ← hroom]
        have hmap : (Except.ok (chunk.size * chunk.nmemb, mem₁)).map Prod.snd >>= download chunks =
            download chunks mem₁ := rfl
        rw [hmap]
        by_cases hleft : total (accepted mem₁.room chunks) < mem₁.room
        · rw [if_pos hleft] at ih
          obtain ⟨mem', hmem', hdone⟩ := ih
          rw [if_pos (by omega)]
          exact ⟨mem', hmem', htook.downloaded hdone⟩
        · rw [if_neg hleft] at ih
          rw [if_neg (by omega)]
          exact ih

/-- **Every write is inside the block** and the block holds the accepted chunks and their
terminator, exactly when the accepted chunks do not fill it. -/
theorem download_safe_iff (size : UInt64) (h : 0 < size.toNat) (memory : Block size.toNat)
    (chunks : List Delivery) :
    (∃ mem', download chunks (fresh memory) = .ok mem' ∧
      Downloaded (accepted size.toNat chunks) (fresh memory) mem') ↔
    total (accepted size.toNat chunks) < size.toNat := by
  have hroom : (fresh memory).room = size.toNat := Nat.sub_zero _
  have hcases := download_cases chunks (fresh memory) (by rw [hroom]; exact h)
  rw [hroom] at hcases
  by_cases hlt : total (accepted size.toNat chunks) < size.toNat
  · rw [if_pos hlt] at hcases
    exact iff_of_true hcases hlt
  · rw [if_neg hlt] at hcases
    refine iff_of_false ?_ hlt
    rintro ⟨mem', hok, -⟩
    exact nomatch hcases.symm.trans hok

/-- A chunk of one byte, as curl delivers it. -/
def oneByte : Delivery := ⟨[0x41], 1, 1, rfl⟩

/-- One byte in a block of two. -/
theorem download_safe_two :
    (∃ mem', download [oneByte] (fresh ⟨[0, 0], rfl⟩ : MemoryStruct 2) = .ok mem' ∧
      Downloaded (accepted 2 [oneByte]) (fresh ⟨[0, 0], rfl⟩ : MemoryStruct 2) mem') ↔
    total (accepted 2 [oneByte]) < 2 :=
  download_safe_iff 2 (by decide) ⟨[0, 0], rfl⟩ [oneByte]

/-- The zero of a chunk that fills the block is written behind the end. -/
theorem download_full {size : UInt64} (memory : Block size.toNat) {chunk : Delivery}
    (h : chunk.contents.length = size.toNat) :
    download [chunk] (fresh memory) = .error .outside := by
  have hroom : (fresh memory).room = size.toNat := Nat.sub_zero _
  have hcases := writeMemoryCallback_cases chunk (fresh memory)
  rw [hroom, if_neg (Nat.not_lt.mpr h.le), if_pos h] at hcases
  rw [download_cons, hcases]
  rfl

/-- A chunk as long as a block of two pages of 4096 bytes. -/
def twoPages : Delivery where
  contents := List.replicate (8192 : UInt64).toNat 0x41
  size := 1
  nmemb := 8192
  length_eq := by
    rw [List.length_replicate, UInt64.one_mul]

/-- Two pages downloaded at once. -/
theorem download_outside : ¬ ∀ (size : UInt64) (memory : Block size.toNat) (chunks : List Delivery),
    0 < size.toNat → download chunks (fresh memory) ≠ .error .outside := by
  intro h
  exact h 8192 ⟨List.replicate _ 0, List.length_replicate⟩ [twoPages] (by decide)
    (download_full _ List.length_replicate)

end Quals2017.Leo
