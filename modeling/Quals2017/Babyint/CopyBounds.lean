import Quals2017.Babyint.Reassembly

/-!
# The copies of `AssembleSegments` (`babyint/server/main.cpp:179-240`)

`m_totalLen`, an `int16_t`, sums the lengths of the segments of a sequence, and is the length of the
buffer. The segments are copied to their own offsets, which have nothing to do with it.

* `copies_ok_iff`: the copies of a list of segments are inside a buffer when each of them is.
* `copiesInside_iff`: what that says about the segments which have arrived.
* **`allInside_iff`**: over a whole run, the copies are inside exactly when every group that is
  assembled `Fits`.
-/

namespace Quals2017.Babyint

/-- `AssembleSegments` does not copy outside of the buffer. With a negative length `new` throws, and
nothing is copied. -/
def CopiesInside (junk : Nat → Byte) (q : DataSequence) : Prop :=
  q.assembleSegments junk = .error .undefined → q.totalLen.toInt < 0

/-- The receiver takes a segment. -/
def accept (junk : Nat → Byte) (s : Nat → DataSequence) (x : Pdu) :
    Except Stop (Nat → DataSequence) :=
  (deliverPdu junk (s x.seq) x).map fun r => Function.update s x.seq r.1

/-- Whenever a run on segments assembles, the copies are inside. -/
def AllInside (junk : Nat → Byte) : (Nat → DataSequence) → List Pdu → Prop
  | _, [] => True
  | s, x :: xs => (x.last = true → CopiesInside junk (add (s x.seq) x)) ∧
      ∀ s', accept junk s x = .ok s' → AllInside junk s' xs

/-! ## What has arrived -/

/-- The sum of the lengths, in 16 bits. -/
def sum16 (group : List Pdu) : Nat := (group.map fun x => x.data.length).sum % 2 ^ 16

/-- The segments of a group lie below the sum of their lengths, in 16 bits. Where that is 0, or
negative as an `int16_t`, there are no copies. -/
def Fits (group : List Pdu) : Prop :=
  sum16 group = 0 ∨ 2 ^ 15 ≤ sum16 group ∨ ∀ x ∈ group, x.offset + x.data.length ≤ sum16 group

/-- The receiver goes on after it has assembled the group. -/
def GoesOn (group : List Pdu) : Prop := 0 < sum16 group ∧ sum16 group < 2 ^ 15

/-- Every group that a run assembles fits. `pending` are the segments of each sequence number since
its last flag. -/
def AllFit : (Nat → List Pdu) → List Pdu → Prop
  | _, [] => True
  | pending, x :: xs =>
    let group := pending x.seq ++ [x]
    if x.last then Fits group ∧ (GoesOn group → AllFit (Function.update pending x.seq []) xs)
    else AllFit (Function.update pending x.seq group) xs

/-! ## Copies -/

theorem copySegment_length {buffer buffer' : List Byte} {x : DataSegment}
    (hx : x.data.length = x.length.toNat)
    (h : DataSequence.copySegment buffer x = .ok buffer') : buffer'.length = buffer.length := by
  unfold DataSequence.copySegment at h
  split_ifs at h with hin
  cases h
  rw [List.length_append, List.length_append, List.length_take, List.length_take, List.length_drop]
  omega

theorem copySegment_cases (buffer : List Byte) (x : DataSegment) :
    (x.offset.toNat + x.length.toNat ≤ buffer.length ∧
      ∃ b, DataSequence.copySegment buffer x = .ok b) ∨
    (buffer.length < x.offset.toNat + x.length.toNat ∧
      DataSequence.copySegment buffer x = .error .undefined) := by
  unfold DataSequence.copySegment
  by_cases hin : x.offset.toNat + x.length.toNat ≤ buffer.length
  · rw [if_pos hin]
    exact .inl ⟨hin, _, rfl⟩
  · rw [if_neg hin]
    exact .inr ⟨Nat.lt_of_not_le hin, rfl⟩

/-- **Copies in a row are inside when each of them is**, and are undefined otherwise. -/
theorem copies_cases : ∀ (segments : List DataSegment) (buffer : List Byte),
    (∀ x ∈ segments, x.data.length = x.length.toNat) →
      ((∀ x ∈ segments, x.offset.toNat + x.length.toNat ≤ buffer.length) ∧
        ∃ b, segments.foldlM DataSequence.copySegment buffer = .ok b) ∨
      ((¬ ∀ x ∈ segments, x.offset.toNat + x.length.toNat ≤ buffer.length) ∧
        segments.foldlM DataSequence.copySegment buffer = .error .undefined)
  | [], buffer, _ => .inl ⟨fun x hx => absurd hx List.not_mem_nil, buffer, rfl⟩
  | x :: segments, buffer, hdata => by
    rw [List.foldlM_cons, List.forall_mem_cons]
    rcases copySegment_cases buffer x with ⟨hin, b, hb⟩ | ⟨hout, hb⟩
    · have hlen := copySegment_length (hdata x List.mem_cons_self) hb
      rw [hb, ← hlen]
      rw [← hlen] at hin
      rcases copies_cases segments b fun y hy => hdata y (List.mem_cons_of_mem x hy) with
        ⟨hall, hok⟩ | ⟨hsome, herror⟩
      · exact .inl ⟨⟨hin, hall⟩, hok⟩
      · exact .inr ⟨fun h => hsome h.2, herror⟩
    · rw [hb]
      exact .inr ⟨fun h => absurd h.1 (Nat.not_le.mpr hout), rfl⟩

/-! ## One assembly -/

theorem segmentOf_toNat {x : Pdu} (hx : x.Valid) :
    (segmentOf x).offset.toNat = x.offset ∧ (segmentOf x).length.toNat = x.data.length ∧
      (segmentOf x).data.length = (segmentOf x).length.toNat := by
  have hoffset := hx.offset
  have hshort := hx.short
  have hlength : (segmentOf x).length.toNat = x.data.length :=
    Nat.mod_eq_of_lt (show x.data.length < 2 ^ 8 by omega)
  refine ⟨Nat.mod_eq_of_lt (show x.offset < 2 ^ 16 by omega), hlength, ?_⟩
  show (x.data.take (segmentOf x).length.toNat).length = _
  rw [hlength, List.take_length]

/-- What a group of segments leaves in its sequence. -/
theorem collected {group : List Pdu} (hvalid : ∀ x ∈ group, x.Valid) :
    (group.foldl add .empty).totalLen.toNat = sum16 group ∧
      (group.foldl add .empty).dataSegments = group.map segmentOf := by
  constructor
  · rw [foldl_add_totalLen fun x hx => (hvalid x hx).short]
    exact congrArg BitVec.toNat (BitVec.zero_add _)
  · rw [foldl_add_segments]
    rfl

theorem inside_iff {group : List Pdu} (hvalid : ∀ x ∈ group, x.Valid) (n : Nat) :
    (∀ y ∈ group.map segmentOf, y.offset.toNat + y.length.toNat ≤ n) ↔
      ∀ x ∈ group, x.offset + x.data.length ≤ n := by
  rw [List.forall_mem_map]
  refine forall₂_congr fun x hx => ?_
  obtain ⟨hoffset, hlength, -⟩ := segmentOf_toNat (hvalid x hx)
  rw [hoffset, hlength]

/-- How the assembly of a group ends. -/
theorem assemble_cases (junk : Nat → Byte) {group : List Pdu} (hvalid : ∀ x ∈ group, x.Valid) :
    (sum16 group = 0 ∧ (group.foldl add .empty).assembleSegments junk = .ok none) ∨
    (2 ^ 15 ≤ sum16 group ∧ (group.foldl add .empty).totalLen.toInt < 0 ∧
      (group.foldl add .empty).assembleSegments junk = .error .undefined) ∨
    (GoesOn group ∧ (∀ x ∈ group, x.offset + x.data.length ≤ sum16 group) ∧
      ∃ b, (group.foldl add .empty).assembleSegments junk = .ok (some b)) ∨
    (GoesOn group ∧ (¬ ∀ x ∈ group, x.offset + x.data.length ≤ sum16 group) ∧
      ¬ (group.foldl add .empty).totalLen.toInt < 0 ∧
      (group.foldl add .empty).assembleSegments junk = .error .undefined) := by
  obtain ⟨htotal, hsegments⟩ := collected hvalid
  have hsum : sum16 group < 2 ^ 16 := Nat.mod_lt _ (by decide)
  unfold DataSequence.assembleSegments
  by_cases hzero : (group.foldl add .empty).totalLen = 0
  · rw [if_pos hzero]
    rw [hzero] at htotal
    exact .inl ⟨htotal.symm, rfl⟩
  · rw [if_neg hzero]
    have hpos : 0 < sum16 group := by
      rw [← htotal]
      exact Nat.pos_of_ne_zero fun h => hzero (BitVec.eq_of_toNat_eq h)
    by_cases hsign : (group.foldl add .empty).totalLen.toInt < 0
    · rw [if_pos hsign]
      refine .inr (.inl ⟨?_, hsign, rfl⟩)
      rw [BitVec.toInt_eq_toNat_cond, htotal] at hsign
      split_ifs at hsign <;> omega
    · rw [if_neg hsign]
      have hgoes : GoesOn group := by
        refine ⟨hpos, ?_⟩
        rw [BitVec.toInt_eq_toNat_cond, htotal] at hsign
        split_ifs at hsign <;> omega
      have hfresh : ((List.range (group.foldl add .empty).totalLen.toNat).map junk).length =
          sum16 group := by
        rw [List.length_map, List.length_range, htotal]
      have hcases := copies_cases (group.map segmentOf)
        ((List.range (group.foldl add .empty).totalLen.toNat).map junk) (by
          rw [List.forall_mem_map]
          exact fun x hx => (segmentOf_toNat (hvalid x hx)).2.2)
      rw [hfresh, inside_iff hvalid] at hcases
      rw [hsegments]
      rcases hcases with ⟨hall, b, hb⟩ | ⟨hnot, herror⟩
      · rw [hb]
        exact .inr (.inr (.inl ⟨hgoes, hall, b, rfl⟩))
      · rw [herror]
        exact .inr (.inr (.inr ⟨hgoes, hnot, hsign, rfl⟩))

/-- **One assembly**: the copies are inside exactly when the group fits. -/
theorem copiesInside_iff (junk : Nat → Byte) {group : List Pdu} (hvalid : ∀ x ∈ group, x.Valid) :
    CopiesInside junk (group.foldl add .empty) ↔ Fits group := by
  unfold CopiesInside Fits
  rcases assemble_cases junk hvalid with ⟨hzero, hok⟩ | ⟨hneg, hsign, -⟩ | ⟨-, hall, b, hok⟩ |
    ⟨hgoes, hnot, hsign, herror⟩
  · rw [hok]
    exact ⟨fun _ => .inl hzero, fun _ h => by cases h⟩
  · exact ⟨fun _ => .inr (.inl hneg), fun _ _ => hsign⟩
  · rw [hok]
    exact ⟨fun _ => .inr (.inr hall), fun _ h => by cases h⟩
  · refine ⟨fun h => absurd (h herror) hsign, ?_⟩
    obtain ⟨hpos, hshort⟩ := hgoes
    rintro (hzero | hneg | hall)
    · omega
    · omega
    · exact absurd hall hnot

/-! ## Runs -/

/-- The sequences hold the pending segments. -/
structure Pending (s : Nat → DataSequence) (pending : Nat → List Pdu) : Prop where
  collected : ∀ i, s i = (pending i).foldl add .empty
  valid : ∀ i, ∀ x ∈ pending i, x.Valid

theorem pending_start : Pending (fun _ => .empty) fun _ => [] :=
  ⟨fun _ => rfl, fun _ _ hx => absurd hx List.not_mem_nil⟩

section Step

variable {s : Nat → DataSequence} {pending : Nat → List Pdu} {x : Pdu}

theorem Pending.add (h : Pending s pending) (x : Pdu) :
    Babyint.add (s x.seq) x = (pending x.seq ++ [x]).foldl Babyint.add .empty := by
  rw [List.foldl_append, h.collected x.seq]
  rfl

theorem Pending.group_valid (h : Pending s pending) (hx : x.Valid) :
    ∀ y ∈ pending x.seq ++ [x], y.Valid := by
  intro y hy
  rcases List.mem_append.mp hy with hy | hy
  · exact h.valid x.seq y hy
  · rwa [List.mem_singleton.mp hy]

theorem Pending.update (h : Pending s pending) {i : Nat} {group : List Pdu}
    (hvalid : ∀ y ∈ group, y.Valid) :
    Pending (Function.update s i (group.foldl Babyint.add .empty))
      (Function.update pending i group) := by
  constructor
  · intro j
    by_cases hj : j = i
    · rw [hj, Function.update_self, Function.update_self]
    · rw [Function.update_of_ne hj, Function.update_of_ne hj]
      exact h.collected j
  · intro j
    by_cases hj : j = i
    · rw [hj, Function.update_self]
      exact hvalid
    · rw [Function.update_of_ne hj]
      exact h.valid j

/-- A segment without the flag is kept. -/
theorem Pending.accept_kept (h : Pending s pending) (junk : Nat → Byte) (hx : x.Valid)
    (hlast : x.last = false) : ∃ s', accept junk s x = .ok s' ∧
      Pending s' (Function.update pending x.seq (pending x.seq ++ [x])) := by
  have hstep := (step_add hx hlast (s x.seq)).2 junk
  refine ⟨Function.update s x.seq (Babyint.add (s x.seq) x), ?_, ?_⟩
  · rw [accept, hstep]
    rfl
  · rw [h.add x]
    exact h.update (h.group_valid hx)

/-- A segment with the flag puts together the group and itself. -/
theorem Pending.deliverPdu_last (h : Pending s pending) (junk : Nat → Byte)
    (hlast : x.last = true) : deliverPdu junk (s x.seq) x =
      (((pending x.seq ++ [x]).foldl Babyint.add .empty).assembleSegments junk >>= fun o =>
        match o with
        | none => .error .exit
        | some buffer => .ok (DataSequence.empty, some buffer)) := by
  rw [← h.add x, deliverPdu, deliver, hlast]
  rfl

/-- After a segment with the flag the receiver goes on, if it does, without the group. -/
theorem Pending.accept_last (h : Pending s pending) (junk : Nat → Byte) (hx : x.Valid)
    (hlast : x.last = true) :
    (GoesOn (pending x.seq ++ [x]) ∧ Fits (pending x.seq ++ [x]) ∧
      ∃ s', accept junk s x = .ok s' ∧ Pending s' (Function.update pending x.seq [])) ∨
    ((GoesOn (pending x.seq ++ [x]) → ¬ Fits (pending x.seq ++ [x])) ∧
      ∀ s', accept junk s x ≠ .ok s') := by
  have hfits := copiesInside_iff junk (h.group_valid hx)
  unfold accept
  rw [h.deliverPdu_last junk hlast]
  rcases assemble_cases junk (h.group_valid hx) with ⟨hzero, hok⟩ | ⟨hneg, -, herror⟩ |
    ⟨hgoes, hall, b, hok⟩ | ⟨hgoes, hnot, hsign, herror⟩
  · rw [hok]
    refine .inr ⟨fun hgoes => absurd hgoes.1 (by omega), fun s' hs' => by cases hs'⟩
  · rw [herror]
    refine .inr ⟨fun hgoes => absurd hgoes.2 (by omega), fun s' hs' => by cases hs'⟩
  · rw [hok]
    refine .inl ⟨hgoes, .inr (.inr hall), _, rfl, ?_⟩
    have hnone : ∀ y ∈ ([] : List Pdu), y.Valid := fun y hy => absurd hy List.not_mem_nil
    exact h.update hnone
  · rw [herror]
    refine .inr ⟨fun _ hgroup => ?_, fun s' hs' => by cases hs'⟩
    exact hsign (hfits.mpr hgroup herror)

end Step

theorem allInside_run (junk : Nat → Byte) : ∀ (xs : List Pdu) {s : Nat → DataSequence}
    {pending : Nat → List Pdu}, Pending s pending → (∀ x ∈ xs, x.Valid) →
      (AllInside junk s xs ↔ AllFit pending xs)
  | [], _, _, _, _ => Iff.rfl
  | x :: xs, s, pending, h, hvalid => by
    have hx := hvalid x List.mem_cons_self
    have hxs : ∀ y ∈ xs, y.Valid := fun y hy => hvalid y (List.mem_cons_of_mem x hy)
    rw [AllInside, AllFit]
    cases hlast : x.last with
    | false =>
      obtain ⟨s', hs', hpending⟩ := h.accept_kept junk hx hlast
      have ih := allInside_run junk xs hpending hxs
      rw [if_neg Bool.false_ne_true, ← ih, hs']
      constructor
      · rintro ⟨-, hnext⟩
        exact hnext s' rfl
      · intro hnext
        refine ⟨fun h => absurd h Bool.false_ne_true, fun t ht => ?_⟩
        cases ht
        exact hnext
    | true =>
      have hinside := copiesInside_iff junk (h.group_valid hx)
      rw [if_pos rfl, h.add x, hinside]
      rcases h.accept_last junk hx hlast with ⟨hgoes, hfits, s', hs', hpending⟩ | ⟨hstop, hnone⟩
      · have ih := allInside_run junk xs hpending hxs
        rw [← ih, hs']
        constructor
        · rintro ⟨-, hnext⟩
          exact ⟨hfits, fun _ => hnext s' rfl⟩
        · rintro ⟨-, hnext⟩
          refine ⟨fun _ => hfits, fun t ht => ?_⟩
          cases ht
          exact hnext hgoes
      · constructor
        · rintro ⟨hfits, -⟩
          exact ⟨hfits rfl, fun hgoes => absurd (hfits rfl) (hstop hgoes)⟩
        · rintro ⟨hfits, -⟩
          exact ⟨fun _ => hfits, fun t ht => absurd ht (hnone t)⟩

/-- **When the copies are inside**, over every run on segments that the receiver accepts. -/
theorem allInside_iff (junk : Nat → Byte) {xs : List Pdu} (hvalid : ∀ x ∈ xs, x.Valid) :
    AllInside junk (fun _ => .empty) xs ↔ AllFit (fun _ => []) xs :=
  allInside_run junk xs pending_start hvalid

/-- Two segments of a sequence that tile two bytes, the second one first. -/
theorem allInside_tiles :
    AllInside (fun _ => 0) (fun _ => .empty) [⟨1, 1, [0xBB], false⟩, ⟨1, 0, [0xAA], true⟩] := by
  have hvalid : ∀ x ∈ ([⟨1, 1, [0xBB], false⟩, ⟨1, 0, [0xAA], true⟩] : List Pdu), x.Valid := by
    intro x hx
    rcases List.mem_pair.mp hx with rfl | rfl
    · exact ⟨by decide, by decide, by decide, by decide⟩
    · exact ⟨by decide, by decide, by decide, by decide⟩
  refine (allInside_iff (fun _ => 0) hvalid).mpr ⟨.inr (.inr ?_), fun _ => trivial⟩
  intro x hx
  rcases List.mem_pair.mp hx with rfl | rfl
  · decide
  · decide

/-- One byte at offset 1: the buffer has one byte, and the copy goes behind it. -/
theorem copy_behind : ¬ ∀ (junk : Nat → Byte) (xs : List Pdu), (∀ x ∈ xs, x.Valid) →
    AllInside junk (fun _ => .empty) xs := by
  intro h
  have hinside := h (fun _ => 0) [⟨0, 1, [0xAA], true⟩] fun x hx => by
    rw [List.mem_singleton.mp hx]
    exact ⟨by decide, by decide, by decide, by decide⟩
  have hnegative := hinside.1 rfl rfl
  exact absurd hnegative (by decide)

end Quals2017.Babyint
