import Mathlib.Data.List.Perm.Basic
import Quals2017.Babyint.Text
import Quals2017.Lib.Interleave

/-!
# Reassembly (`babyint/server/main.cpp:179-240`)

A block is cut into pieces that tile it, and the segments of the pieces arrive in any order with the
flag on the last to arrive (`IsBlock`). A stream of a sequence is blocks, and a part of the next.

* `assemble_copies`: copies that agree with the data and cover it leave the data, in any order.
* `block_run`: a sequence that starts empty puts out a block and is empty again.
* **`receiver_reassembles`**: the receiver takes every interleaving of such streams, and puts out
  the blocks of each.
-/

namespace Quals2017.Babyint

open Quals2017.Lib

/-! ## Copies -/

/-- The segment is a part of the data. -/
structure PartOf (data : List Byte) (x : DataSegment) : Prop where
  inside : x.offset.toNat + x.length.toNat ≤ data.length
  agrees : x.data.take x.length.toNat = (data.drop x.offset.toNat).take x.length.toNat

/-- The segment has a byte for the place. -/
def Covers (x : DataSegment) (i : Nat) : Prop :=
  x.offset.toNat ≤ i ∧ i < x.offset.toNat + x.length.toNat

variable {data : List Byte}

/-- A copy leaves the data where it copies to. -/
theorem copySegment_part {buffer : List Byte} (hlen : buffer.length = data.length)
    {x : DataSegment} (hx : PartOf data x) :
    ∃ buffer', DataSequence.copySegment buffer x = .ok buffer' ∧ buffer'.length = data.length ∧
      ∀ i, Covers x i ∨ buffer[i]? = data[i]? → buffer'[i]? = data[i]? := by
  have hin := hx.inside
  refine ⟨_, if_pos (by rw [hlen]; exact hin), ?_, ?_⟩
  · rw [hx.agrees, List.length_append, List.length_append, List.length_take, List.length_take,
      List.length_drop, List.length_drop]
    omega
  · intro i hi
    have htake : (buffer.take x.offset.toNat).length = x.offset.toNat := by
      rw [List.length_take]
      omega
    have hmid : ((data.drop x.offset.toNat).take x.length.toNat).length = x.length.toNat := by
      rw [List.length_take, List.length_drop]
      omega
    rw [hx.agrees, List.append_assoc]
    by_cases hbelow : i < x.offset.toNat
    · rw [List.getElem?_append_left (by omega), List.getElem?_take_of_lt hbelow]
      exact hi.resolve_left fun hc => absurd hc.1 (Nat.not_le_of_lt hbelow)
    by_cases hcover : i < x.offset.toNat + x.length.toNat
    · rw [List.getElem?_append_right (by omega), List.getElem?_append_left (by omega), htake,
        List.getElem?_take_of_lt (by omega), List.getElem?_drop]
      congr 1
      omega
    · rw [List.getElem?_append_right (by omega), List.getElem?_append_right (by omega), htake, hmid,
        List.getElem?_drop]
      have hsame := hi.resolve_left fun hc => hcover hc.2
      rw [← hsame]
      congr 1
      omega

theorem copies_part (segments : List DataSegment) (hparts : ∀ x ∈ segments, PartOf data x) :
    ∀ {buffer : List Byte}, buffer.length = data.length →
      ∃ buffer', segments.foldlM DataSequence.copySegment buffer = .ok buffer' ∧
        buffer'.length = data.length ∧
        ∀ i, (∃ x ∈ segments, Covers x i) ∨ buffer[i]? = data[i]? → buffer'[i]? = data[i]? := by
  induction segments with
  | nil =>
    intro buffer hlen
    refine ⟨buffer, rfl, hlen, fun i hi => hi.resolve_left ?_⟩
    rintro ⟨x, hx, -⟩
    cases hx
  | cons x segments ih =>
    intro buffer hlen
    obtain ⟨b, hb, hblen, hbi⟩ := copySegment_part hlen (hparts x List.mem_cons_self)
    obtain ⟨b', hb', hblen', hbi'⟩ := ih (fun y hy => hparts y (List.mem_cons_of_mem x hy)) hblen
    refine ⟨b', ?_, hblen', fun i hi => hbi' i ?_⟩
    · rw [List.foldlM_cons, hb]
      exact hb'
    · rcases hi with ⟨y, hy, hyi⟩ | hi
      · rcases List.mem_cons.mp hy with rfl | hy
        · exact .inr (hbi i (.inl hyi))
        · exact .inl ⟨y, hy, hyi⟩
      · exact .inr (hbi i (.inr hi))

/-- **Copies that cover the data leave the data.** -/
theorem assemble_copies {segments : List DataSegment} (hparts : ∀ x ∈ segments, PartOf data x)
    (hcover : ∀ i, i < data.length → ∃ x ∈ segments, Covers x i) {buffer : List Byte}
    (hlen : buffer.length = data.length) :
    segments.foldlM DataSequence.copySegment buffer = .ok data := by
  obtain ⟨b, hb, hblen, hbi⟩ := copies_part segments hparts hlen
  rw [hb]
  congr 1
  refine List.ext_getElem? fun i => ?_
  by_cases hi : i < data.length
  · exact hbi i (.inl (hcover i hi))
  · rw [List.getElem?_eq_none (by omega), List.getElem?_eq_none (by omega)]

/-! ## Blocks -/

/-- The pieces with their offsets. -/
def cut : Nat → List (List Byte) → List (Nat × List Byte)
  | _, [] => []
  | offset, piece :: pieces => (offset, piece) :: cut (offset + piece.length) pieces

/-- The segments of a block in the order of their arrival. -/
structure IsBlock (segments : List Pdu) (data : List Byte) : Prop where
  pos : 1 ≤ data.length
  short : data.length ≤ 32767
  tiles : ∃ pieces : List (List Byte), pieces.flatten = data ∧
    (∀ piece ∈ pieces, 1 ≤ piece.length ∧ piece.length ≤ 255) ∧
    (segments.map fun x => (x.offset, x.data)).Perm (cut 0 pieces)
  flag : ∃ front final, segments = front ++ [final] ∧ (∀ x ∈ front, x.last = false) ∧
    final.last = true

/-- A piece lies in the data, where its offset says. -/
theorem cut_part {pieces : List (List Byte)} : ∀ {front : List Byte} {p : Nat × List Byte},
    p ∈ cut front.length pieces → p.1 + p.2.length ≤ (front ++ pieces.flatten).length ∧
      p.2 = ((front ++ pieces.flatten).drop p.1).take p.2.length := by
  induction pieces with
  | nil => intro front p hp; cases hp
  | cons piece pieces ih =>
    intro front p hp
    rcases List.mem_cons.mp hp with rfl | hp
    · dsimp only
      rw [List.flatten_cons, List.drop_left, List.take_left, List.length_append, List.length_append]
      exact ⟨by omega, rfl⟩
    · have hrest := @ih (front ++ piece) p (by rw [List.length_append]; exact hp)
      rwa [List.append_assoc] at hrest

theorem cut_cover {pieces : List (List Byte)} : ∀ {offset i : Nat}, offset ≤ i →
    i < offset + pieces.flatten.length → ∃ p ∈ cut offset pieces, p.1 ≤ i ∧ i < p.1 + p.2.length := by
  induction pieces with
  | nil =>
    intro offset i hle hlt
    rw [List.flatten_nil, List.length_nil] at hlt
    omega
  | cons piece pieces ih =>
    intro offset i hle hlt
    rw [List.flatten_cons, List.length_append] at hlt
    by_cases hi : i < offset + piece.length
    · exact ⟨_, List.mem_cons_self, hle, hi⟩
    · obtain ⟨p, hp, hpi⟩ := ih (Nat.le_of_not_lt hi) (by omega)
      exact ⟨p, List.mem_cons_of_mem _ hp, hpi⟩

theorem cut_sum (pieces : List (List Byte)) (offset : Nat) :
    ((cut offset pieces).map fun p => p.2.length).sum = pieces.flatten.length := by
  induction pieces generalizing offset with
  | nil => rfl
  | cons piece pieces ih =>
    rw [cut, List.map_cons, List.sum_cons, ih, List.flatten_cons, List.length_append]

theorem cut_piece {pieces : List (List Byte)} {offset : Nat} {p : Nat × List Byte}
    (hp : p ∈ cut offset pieces) : p.2 ∈ pieces := by
  induction pieces generalizing offset with
  | nil => cases hp
  | cons piece pieces ih =>
    rcases List.mem_cons.mp hp with rfl | hp
    · exact List.mem_cons_self
    · exact List.mem_cons_of_mem _ (ih hp)

/-! ## A sequence -/

/-- `AddSegment` of a segment that has arrived. -/
def add (q : DataSequence) (x : Pdu) : DataSequence :=
  q.addSegment (BitVec.ofNat 16 x.offset) x.data (BitVec.ofNat 8 x.data.length)

/-- What `AddSegment` appends. -/
def segmentOf (x : Pdu) : DataSegment where
  offset := BitVec.ofNat 16 x.offset
  length := BitVec.ofNat 8 x.data.length
  data := x.data.take (BitVec.ofNat 8 x.data.length).toNat

/-- A segment is taken, whatever fresh allocations hold. -/
def Step (q : DataSequence) (x : Pdu) (q' : DataSequence) (o : Option (List Byte)) : Prop :=
  x.Valid ∧ ∀ junk, deliverPdu junk q x = .ok (q', o)

theorem step_add {x : Pdu} (hx : x.Valid) (hlast : x.last = false) (q : DataSequence) :
    Step q x (add q x) none := by
  refine ⟨hx, fun junk => ?_⟩
  rw [deliverPdu, hlast]
  rfl

/-- Segments without the flag are collected. -/
theorem run_add {xs : List Pdu} (hvalid : ∀ x ∈ xs, x.Valid) (hlast : ∀ x ∈ xs, x.last = false)
    (q : DataSequence) : RunOne Step q xs (xs.foldl add q) [] := by
  induction xs generalizing q with
  | nil => exact .nil q
  | cons x xs ih =>
    exact .cons (step_add (hvalid x List.mem_cons_self) (hlast x List.mem_cons_self) q)
      (ih (fun y hy => hvalid y (List.mem_cons_of_mem x hy))
        (fun y hy => hlast y (List.mem_cons_of_mem x hy)) (add q x))

theorem foldl_add_segments (xs : List Pdu) (q : DataSequence) :
    (xs.foldl add q).dataSegments = q.dataSegments ++ xs.map segmentOf := by
  induction xs generalizing q with
  | nil => exact (List.append_nil _).symm
  | cons x xs ih =>
    rw [List.foldl_cons, ih, List.map_cons]
    exact List.append_assoc _ [segmentOf x] _

theorem foldl_add_totalLen {xs : List Pdu} (hshort : ∀ x ∈ xs, x.data.length ≤ 255)
    (q : DataSequence) : (xs.foldl add q).totalLen =
      q.totalLen + BitVec.ofNat 16 (xs.map fun x => x.data.length).sum := by
  induction xs generalizing q with
  | nil => exact (BitVec.add_zero _).symm
  | cons x xs ih =>
    have hx := hshort x List.mem_cons_self
    have hwidth : (BitVec.ofNat 8 x.data.length).setWidth 16 = BitVec.ofNat 16 x.data.length := by
      rw [BitVec.setWidth_ofNat_of_le_of_lt (by decide) (by omega)]
    rw [List.foldl_cons, ih fun y hy => hshort y (List.mem_cons_of_mem x hy), List.map_cons,
      List.sum_cons, BitVec.ofNat_add, ← BitVec.add_assoc, add, DataSequence.addSegment, hwidth]

/-! ## A block -/

section Block

variable {segments : List Pdu}

theorem IsBlock.mem (h : IsBlock segments data) {x : Pdu} (hx : x ∈ segments) :
    x.offset + x.data.length ≤ data.length ∧
      x.data = (data.drop x.offset).take x.data.length ∧ 1 ≤ x.data.length ∧ x.data.length ≤ 255 := by
  obtain ⟨pieces, hflat, hlen, hperm⟩ := h.tiles
  have hmem : (x.offset, x.data) ∈ cut 0 pieces := hperm.subset (List.mem_map_of_mem hx)
  obtain ⟨hin, heq⟩ := @cut_part pieces [] _ hmem
  rw [List.nil_append, hflat] at hin heq
  exact ⟨hin, heq, hlen _ (cut_piece hmem)⟩

theorem segmentOf_part (h : IsBlock segments data) {x : Pdu} (hx : x ∈ segments) :
    PartOf data (segmentOf x) ∧ (segmentOf x).offset.toNat = x.offset ∧
      (segmentOf x).length.toNat = x.data.length := by
  obtain ⟨hin, heq, -, hshort⟩ := h.mem hx
  have hlen := h.short
  have hoffset : (segmentOf x).offset.toNat = x.offset :=
    Nat.mod_eq_of_lt (show x.offset < 2 ^ 16 by omega)
  have hlength : (segmentOf x).length.toNat = x.data.length :=
    Nat.mod_eq_of_lt (show x.data.length < 2 ^ 8 by omega)
  refine ⟨⟨?_, ?_⟩, hoffset, hlength⟩
  · rw [hoffset, hlength]
    exact hin
  · rw [hoffset, hlength, segmentOf, List.take_take]
    change x.data.take (min _ (segmentOf x).length.toNat) = _
    rw [hlength, Nat.min_self, List.take_length]
    exact heq

theorem IsBlock.valid (h : IsBlock segments data) {x : Pdu} (hx : x ∈ segments)
    (hseq : x.seq ≤ 255) : x.Valid := by
  obtain ⟨hin, -, hpos, hshort⟩ := h.mem hx
  have hlen := h.short
  exact ⟨hseq, by omega, hpos, hshort⟩

theorem IsBlock.sum (h : IsBlock segments data) :
    (segments.map fun x => x.data.length).sum = data.length := by
  obtain ⟨pieces, hflat, -, hperm⟩ := h.tiles
  have hsum := (hperm.map fun p => p.2.length).sum_eq
  rwa [List.map_map, cut_sum, hflat] at hsum

theorem IsBlock.cover (h : IsBlock segments data) {i : Nat} (hi : i < data.length) :
    ∃ x ∈ segments.map segmentOf, Covers x i := by
  obtain ⟨pieces, hflat, -, hperm⟩ := h.tiles
  obtain ⟨p, hp, hpi⟩ := @cut_cover pieces 0 i (Nat.zero_le i) (by rw [hflat]; omega)
  obtain ⟨x, hx, rfl⟩ := List.mem_map.mp (hperm.symm.subset hp)
  obtain ⟨-, hoffset, hlength⟩ := segmentOf_part h hx
  refine ⟨_, List.mem_map_of_mem hx, ?_⟩
  rw [Covers, hoffset, hlength]
  exact hpi

/-- **The buffer is the data.** -/
theorem assemble_block (h : IsBlock segments data) (junk : Nat → Byte) :
    (segments.foldl add .empty).assembleSegments junk = .ok (some data) := by
  have hpos := h.pos
  have hshort := h.short
  have htotal : (segments.foldl add .empty).totalLen = BitVec.ofNat 16 data.length := by
    rw [foldl_add_totalLen (fun x hx => (h.mem hx).2.2.2), h.sum]
    exact BitVec.zero_add _
  have hnat : (BitVec.ofNat 16 data.length).toNat = data.length :=
    Nat.mod_eq_of_lt (show data.length < 2 ^ 16 by omega)
  have hzero : BitVec.ofNat 16 data.length ≠ 0 := by
    intro hz
    rw [hz] at hnat
    exact absurd hnat.symm (Nat.ne_of_gt hpos)
  have hsign : ¬(BitVec.ofNat 16 data.length).toInt < 0 := by
    rw [BitVec.toInt_eq_toNat_of_lt (by omega)]
    omega
  have hparts : ∀ x ∈ segments.map segmentOf, PartOf data x := by
    intro x hx
    obtain ⟨y, hy, rfl⟩ := List.mem_map.mp hx
    exact (segmentOf_part h hy).1
  have hfresh : ((List.range data.length).map junk).length = data.length := by
    rw [List.length_map, List.length_range]
  have hcopies := assemble_copies hparts (fun i hi => h.cover hi) hfresh
  rw [DataSequence.assembleSegments, htotal, if_neg hzero, if_neg hsign, hnat, foldl_add_segments]
  change (List.foldlM _ _ (segments.map segmentOf) >>= _) = _
  rw [hcopies]
  rfl

/-- **A block is put out, and its sequence is empty again.** -/
theorem block_run (h : IsBlock segments data) (hseq : ∀ x ∈ segments, x.seq ≤ 255) :
    RunOne Step .empty segments .empty [data] := by
  obtain ⟨front, final, rfl, hfront, hfinal⟩ := h.flag
  have hvalid : ∀ x ∈ front ++ [final], x.Valid := fun x hx => h.valid hx (hseq x hx)
  have hcollect := run_add (fun x hx => hvalid x (List.mem_append_left _ hx)) hfront .empty
  refine hcollect.append (.cons (o := some data) ⟨hvalid final (by simp), fun junk => ?_⟩ (.nil _))
  have hassemble := assemble_block h junk
  rw [List.foldl_append] at hassemble
  rw [deliverPdu, deliver, hfinal]
  change (DataSequence.assembleSegments junk (List.foldl add _ [final]) >>= _) = _
  rw [hassemble]
  rfl

end Block

/-! ## The receiver -/

/-- The segments of a sequence number: whole blocks, then segments of the next one. -/
def Stream (xs : List Pdu) (blocks : List (List Byte)) (pending : List Pdu) : Prop :=
  ∃ delivered : List (List Pdu), xs = delivered.flatten ++ pending ∧
    List.Forall₂ IsBlock delivered blocks ∧ ∀ x ∈ pending, x.Valid ∧ x.last = false

theorem stream_run {xs pending : List Pdu} {blocks : List (List Byte)}
    (h : Stream xs blocks pending) (hseq : ∀ x ∈ xs, x.seq ≤ 255) :
    RunOne Step .empty xs (pending.foldl add .empty) blocks := by
  obtain ⟨delivered, rfl, hblocks, hpending⟩ := h
  induction hblocks with
  | nil => exact run_add (fun x hx => (hpending x hx).1) (fun x hx => (hpending x hx).2) .empty
  | @cons segments data _ _ hblock _ ih =>
    rw [List.flatten_cons, List.append_assoc] at hseq ⊢
    exact (block_run hblock fun x hx => hseq x (List.mem_append_left _ hx)).append
      (ih fun x hx => hseq x (List.mem_append_right _ hx))

theorem runReceiver_of_runAll {junk : Receiver → Nat → Byte} {s t : Nat → DataSequence}
    {pdus : List Pdu} {os : List (Nat × List Byte)} (h : RunAll Step Pdu.seq s pdus t os)
    (rest : List Byte) (output : List (Nat × List Byte)) :
    runReceiver junk pdus.length ⟨s, pdus.flatMap text ++ rest, output⟩ =
      .ok ⟨t, rest, output ++ os⟩ := by
  induction h generalizing output with
  | nil =>
    rw [List.append_nil]
    rfl
  | cons step _ ih =>
    rw [List.flatMap_cons, List.append_assoc, List.length_cons, runReceiver,
      receive_text step.1 rfl (step.2 _)]
    change runReceiver _ _ _ = _
    rw [ih, List.append_assoc]

/-- **The receiver reassembles every interleaving.** -/
theorem receiver_reassembles (junk : Receiver → Nat → Byte) {pdus : List Pdu}
    (hseq : ∀ x ∈ pdus, x.seq ≤ 255) {blocks : Nat → List (List Byte)} {pending : Nat → List Pdu}
    (h : ∀ i, Stream (pdus.filter fun x => x.seq = i) (blocks i) (pending i)) (rest : List Byte) :
    ∃ r, runReceiver junk pdus.length (start (pdus.flatMap text ++ rest)) = .ok r ∧
      r.input = rest ∧ (∀ i, outputsOf i r.output = blocks i) ∧
      ∀ i, pending i = [] → r.sequences i = .empty := by
  have halone : ∀ i, RunOne Step DataSequence.empty (pdus.filter fun x => x.seq = i)
      ((pending i).foldl add .empty) (blocks i) := fun i =>
    stream_run (h i) fun x hx => hseq x (List.mem_of_mem_filter hx)
  obtain ⟨os, hrun, hos⟩ : ∃ os, RunAll Step Pdu.seq (fun _ => DataSequence.empty) pdus
      (fun i => (pending i).foldl add .empty) os ∧ ∀ i, outputsOf i os = blocks i :=
    runAll_of_runOne halone
  refine ⟨_, runReceiver_of_runAll hrun rest [], rfl, hos, fun i hi => ?_⟩
  change (pending i).foldl add .empty = .empty
  rw [hi]
  rfl

/-- Two blocks, one of them in two segments that arrive the wrong way round. -/
def twoBlocks : List Pdu :=
  [⟨1, 1, [0xBB], false⟩, ⟨2, 0, [0xCC], true⟩, ⟨1, 0, [0xAA], true⟩]

theorem isBlock_first : IsBlock [⟨1, 1, [0xBB], false⟩, ⟨1, 0, [0xAA], true⟩] [0xAA, 0xBB] where
  pos := by decide
  short := by decide
  tiles := ⟨[[0xAA], [0xBB]], rfl, by decide, List.Perm.swap _ _ []⟩
  flag := ⟨[⟨1, 1, [0xBB], false⟩], ⟨1, 0, [0xAA], true⟩, rfl, by decide, rfl⟩

theorem isBlock_second : IsBlock [⟨2, 0, [0xCC], true⟩] [0xCC] where
  pos := by decide
  short := by decide
  tiles := ⟨[[0xCC]], rfl, by decide, List.Perm.refl _⟩
  flag := ⟨[], ⟨2, 0, [0xCC], true⟩, rfl, by decide, rfl⟩

/-- The blocks of `twoBlocks`. -/
def twoBlocksData (i : Nat) : List (List Byte) :=
  if i = 1 then [[0xAA, 0xBB]] else if i = 2 then [[0xCC]] else []

theorem receiver_reassembles_twoBlocks :
    ∃ r, runReceiver (fun _ _ => 0) 3 (start (twoBlocks.flatMap text ++ [])) = .ok r ∧
      r.input = [] ∧ (∀ i, outputsOf i r.output = twoBlocksData i) ∧ ∀ i, r.sequences i = .empty := by
  have hseq : ∀ x ∈ twoBlocks, x.seq ≤ 255 := by decide
  have hstream : ∀ i, Stream (twoBlocks.filter fun x => x.seq = i) (twoBlocksData i) [] := by
    intro i
    by_cases h1 : i = 1
    · rw [h1]
      exact ⟨[_], rfl, .cons isBlock_first .nil, by simp⟩
    by_cases h2 : i = 2
    · rw [h2]
      exact ⟨[_], rfl, .cons isBlock_second .nil, by simp⟩
    · refine ⟨[], ?_, ?_, by simp⟩
      · simp [twoBlocks, Ne.symm h1, Ne.symm h2]
      · rw [twoBlocksData, if_neg h1, if_neg h2]
        exact .nil
  obtain ⟨r, hrun, hinput, houtput, hempty⟩ := receiver_reassembles (fun _ _ => 0) hseq hstream []
  exact ⟨r, hrun, hinput, houtput, fun i => hempty i rfl⟩

end Quals2017.Babyint
