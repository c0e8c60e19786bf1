import Quals2017.Divided.Revenue

/-!
# The indices of the commands (`divided/ConsoleApplication2/ConsoleApplication2/service.c:68-171`)

`add_plane` compares its airports with `NUMAIRPORTS` as signed numbers and does not look for
negative ones, `sell_ticket` does not compare `num_passengers` with `NUM_PASSENGERS`, and
`get_plane_info` reads the record of a flight that has landed.

* `Use`: an index into `airports`, `sttp->airplanes` or `sttp->passengers`, or a pointer to a plane,
  with the planes that are allocated. `Service.uses` has those of a command, in the order of the
  source, up to the call that does not return.
* `Service.fleetAfter`: the planes that are allocated after a command. `add_plane` allocates one,
  and `land_plane` frees its plane and what its loop finds. A transmission frees the text it took.
* `Manifest`: what holds of the pointers and of the counters between two rounds.
* **`uses_safe_iff`**: the uses of one command.
* **`indices_iff`**: the uses of a run.
-/

namespace Quals2017.Divided

open Quals2017.Lib Quals2017.Lib.ByteMem

/-- An index, or a pointer with the planes that are allocated. -/
inductive Use
  | airport (code : Int)
  | plane (number : Nat)
  | passenger (i : Nat)
  | pointer (p : Word) (fleet : List Word)

/-- The index is within its array, and the pointer is that of a plane. -/
def Use.Safe : Use → Prop
  | .airport code => 0 ≤ code ∧ code < (numAirports : Int)
  | .plane number => number < numPlanes
  | .passenger i => i < numPassengers
  | .pointer p fleet => p ∈ fleet

namespace Service

variable (host : Host) (fuel : Nat) (s : Service) (fleet : List Word)

/-! ## What a command uses -/

/-- The block that `add_plane` takes, if it comes to that. -/
def added (fromAir toAir : Word) : List Word :=
  if (numAirports : Int) ≤ fromAir.toInt ∨ (numAirports : Int) ≤ toAir.toInt ∨
      numPlanes ≤ s.airplanes.length then []
  else match malloc host fuel s.heap 32 with
    | .ok (_, airplane) => [airplane]
    | .error _ => []

/-- The calls of `sell_ticket` return. -/
def taken (which_plane : Word) (name : List (BitVec 8)) : Bool :=
  match malloc host fuel s.heap 16 with
  | .ok (h, p) =>
    (readLine host fuel { h with mem := h.mem.store (p + 12) which_plane } 512 name).isOk
  | .error _ => false

/-- What the loop of `land_plane` frees. -/
def freed (which_plane : Word) : List Word → Heap → List Word
  | [], _ => []
  | p :: rest, h =>
    if p ≠ 0 ∧ h.mem.load (p + 12) = which_plane then
      match free host fuel h p with
      | .error _ => [p]
      | .ok h' => p :: freed which_plane rest h'
    else freed which_plane rest h

/-- What `land_plane` frees. -/
def returned (which_plane : Word) : List Word :=
  if s.Flying which_plane then
    s.airplanes.getD which_plane.toNat 0 ::
      match s.landing host fuel which_plane with
      | .ok h => freed host fuel which_plane s.passengers h
      | .error _ => []
  else []

/-- The indices of the loops over `sttp->passengers`, to their end. -/
def rows : List Use := (List.range s.passengers.length).map .passenger

/-- The airports of a plane. -/
def airportUses (m : ByteMem) (p : Word) : List Use :=
  [.airport (load64 m p).toNat, .airport (load64 m (p + 8)).toNat]

def addPlaneUses (fromAir toAir : Word) : List Use :=
  (s.added host fuel fromAir toAir).flatMap fun airplane =>
    [.pointer airplane (fleet ++ [airplane]), .airport fromAir.toInt, .airport toAir.toInt,
      .plane s.airplanes.length]

def sellTicketUses (which_plane : Word) (name : List (BitVec 8)) : List Use :=
  if which_plane.toNat < s.airplanes.length then
    .plane which_plane.toNat ::
      if s.Flying which_plane ∧ s.taken host fuel which_plane name then
        [.passenger s.passengers.length]
      else []
  else []

def landPlaneUses (which_plane : Word) : List Use :=
  if which_plane.toNat < s.airplanes.length then
    let landed := s.airplanes.getD which_plane.toNat 0
    .plane which_plane.toNat ::
      if landed = 0 then []
      else .pointer landed fleet :: airportUses s.heap.mem landed ++
        match s.landing host fuel which_plane with
        | .ok _ => s.rows
        | .error _ => []
  else []

def getPlaneInfoUses (which_plane : Word) : List Use :=
  if which_plane.toNat < s.airplanes.length then
    let airplane := s.airplanes.getD which_plane.toNat 0
    .plane which_plane.toNat :: .pointer airplane fleet ::
      match transmitInt host fuel s.heap (s.heap.mem.load (airplane + 24)) with
      | .ok h => if airplane = 0 then [] else airportUses h.mem airplane ++ s.rows
      | .error _ => []
  else []

def uses : Command → List Use
  | .addPlane fromAir toAir _ => s.addPlaneUses host fuel fleet fromAir toAir
  | .sellTicket which_plane name _ => s.sellTicketUses host fuel which_plane name
  | .landPlane which_plane => s.landPlaneUses host fuel fleet which_plane
  | .getGeneralStats => []
  | .getPlaneInfo which_plane => s.getPlaneInfoUses host fuel fleet which_plane

/-- The planes that are allocated after a command that returns. -/
def fleetAfter : Command → List Word
  | .addPlane fromAir toAir _ => fleet ++ s.added host fuel fromAir toAir
  | .landPlane which_plane => fleet.filter fun p => p ∉ s.returned host fuel which_plane
  | _ => fleet

/-- The airports of a plane that is added are not negative, a ticket is sold where there is room for
it, and the flight that is asked for has not landed. -/
def Proper : Command → Prop
  | .addPlane fromAir toAir _ =>
    s.added host fuel fromAir toAir ≠ [] → 0 ≤ fromAir.toInt ∧ 0 ≤ toAir.toInt
  | .sellTicket which_plane name _ =>
    s.Flying which_plane → s.taken host fuel which_plane name → s.passengers.length < numPassengers
  | .getPlaneInfo which_plane =>
    which_plane.toNat < s.airplanes.length → s.airplanes.getD which_plane.toNat 0 ≠ 0
  | _ => True

end Service

/-- The uses of a run. -/
def UsesSafe (host : Host) (fuel : Nat) : Service → List Word → List Command → Prop
  | _, _, [] => True
  | s, fleet, c :: cs =>
    (validateHeap host fuel s.heap = .ok () → ∀ u ∈ s.uses host fuel fleet c, u.Safe) ∧
    ∀ s', round host fuel s c = .ok s' → UsesSafe host fuel s' (s.fleetAfter host fuel fleet c) cs

/-- A run of proper commands. -/
def ProperRun (host : Host) (fuel : Nat) : Service → List Command → Prop
  | _, [] => True
  | s, c :: cs =>
    (validateHeap host fuel s.heap = .ok () → s.Proper host fuel c) ∧
    ∀ s', round host fuel s c = .ok s' → ProperRun host fuel s' cs

variable {host : Host} {fuel : Nat} {process : Process} {s s' : Service} {l : Ledger}
  {live : List (Word × Word)} {fleet : List Word}

/-! ## Between two rounds -/

/-- The planes of `sttp->airplanes` are allocated, and there is room for what the counters count. -/
structure Manifest (fleet : List Word) (s : Service) : Prop where
  nonzero : (0 : Word) ∉ fleet
  planes : ∀ p ∈ s.airplanes, p ≠ 0 → p ∈ fleet
  codes : ∀ p ∈ s.airplanes, p ≠ 0 → ∀ u ∈ Service.airportUses s.heap.mem p, u.Safe
  flights : s.airplanes.length ≤ numPlanes
  tickets : s.passengers.length ≤ numPassengers

theorem airport_safe {n : Nat} : (Use.airport n).Safe ↔ n < numAirports := by
  change 0 ≤ (n : Int) ∧ (n : Int) < (numAirports : Int) ↔ n < numAirports
  omega

/-- A plane that stays. -/
theorem airportUses_congr {m m' : ByteMem} {p : Word} (hsame : SameOn m m' p.toNat 32)
    (hp : p.toNat + 32 < 2 ^ 32) : Service.airportUses m' p = Service.airportUses m p := by
  have h₈ : (p + 8).toNat = p.toNat + 8 := @toNat_add_ofNat p 8 (by omega)
  unfold Service.airportUses
  rw [load64_congr (hsame.mono (Nat.le_refl _) (by omega)) (by omega),
    load64_congr (hsame.mono (by omega) (by omega)) (by omega)]

/-- A block that `add_plane` takes is for airports that it has compared. -/
theorem added_cases (host : Host) (fuel : Nat) (s : Service) (fromAir toAir : Word) :
    s.added host fuel fromAir toAir = [] ∨
      ∃ airplane, s.added host fuel fromAir toAir = [airplane] ∧
        fromAir.toInt < (numAirports : Int) ∧ toAir.toInt < (numAirports : Int) ∧
          s.airplanes.length < numPlanes := by
  unfold Service.added
  split_ifs with hguard
  · exact Or.inl rfl
  · cases malloc host fuel s.heap 32 with
    | error e => exact Or.inl rfl
    | ok r => exact Or.inr ⟨r.2, rfl, by omega⟩

theorem rows_safe (hm : Manifest fleet s) : ∀ u ∈ s.rows, u.Safe := by
  intro u hu
  obtain ⟨i, hi, rfl⟩ := List.mem_map.mp hu
  exact (List.mem_range.mp hi).trans_le hm.tickets

theorem addPlane_uses {fromAir toAir arrival_time : Word} :
    (∀ u ∈ s.uses host fuel fleet (.addPlane fromAir toAir arrival_time), u.Safe) ↔
      s.Proper host fuel (.addPlane fromAir toAir arrival_time) := by
  simp only [Service.uses, Service.addPlaneUses, Service.Proper]
  rcases added_cases host fuel s fromAir toAir with hadded | ⟨airplane, hadded, hfrom, hto, hroom⟩
  · simp [hadded]
  · simp [hadded, Use.Safe, hfrom, hto, hroom]

theorem sellTicket_uses (hm : Manifest fleet s) {which_plane : Word} {name : List (BitVec 8)}
    {price : BitVec 64} :
    (∀ u ∈ s.uses host fuel fleet (.sellTicket which_plane name price), u.Safe) ↔
      s.Proper host fuel (.sellTicket which_plane name price) := by
  simp only [Service.uses, Service.sellTicketUses, Service.Proper]
  by_cases hlt : which_plane.toNat < s.airplanes.length
  · have hplane : which_plane.toNat < numPlanes := hlt.trans_le hm.flights
    rw [if_pos hlt, List.forall_mem_cons, ← and_imp]
    split_ifs with hsale
    · simp [hsale, Use.Safe, hplane]
    · simp [hsale, Use.Safe, hplane]
  · have hflying : ¬ s.Flying which_plane := fun h => hlt h.1
    simp [hlt, hflying]

theorem landPlane_uses (hm : Manifest fleet s) {which_plane : Word} :
    ∀ u ∈ s.uses host fuel fleet (.landPlane which_plane), u.Safe := by
  simp only [Service.uses, Service.landPlaneUses]
  split_ifs with hlt hzero
  · rw [List.forall_mem_cons]
    exact ⟨hlt.trans_le hm.flights, fun u hu => absurd hu List.not_mem_nil⟩
  · have hmem := Service.Flying.getD_mem ⟨hlt, hzero⟩
    rw [List.forall_mem_cons, List.cons_append, List.forall_mem_cons]
    refine ⟨hlt.trans_le hm.flights, hm.planes _ hmem hzero, fun u hu => ?_⟩
    rcases List.mem_append.mp hu with hu | hu
    · exact hm.codes _ hmem hzero u hu
    · cases hlanding : s.landing host fuel which_plane with
      | error e => exact absurd (hlanding ▸ hu) List.not_mem_nil
      | ok h => exact rows_safe hm u (by simpa [hlanding] using hu)
  · exact fun u hu => absurd hu List.not_mem_nil

theorem getPlaneInfo_uses (hd : process.toHost.Disjoint) (hb : Books process live s l)
    (hm : Manifest fleet s) {which_plane : Word} :
    (∀ u ∈ s.uses process.toHost fuel fleet (.getPlaneInfo which_plane), u.Safe) ↔
      s.Proper process.toHost fuel (.getPlaneInfo which_plane) := by
  simp only [Service.uses, Service.getPlaneInfoUses, Service.Proper]
  by_cases hlt : which_plane.toNat < s.airplanes.length
  · rw [if_pos hlt, List.forall_mem_cons, List.forall_mem_cons]
    by_cases hzero : s.airplanes.getD which_plane.toNat 0 = 0
    · have hnot : ¬ (Use.pointer (s.airplanes.getD which_plane.toNat 0) fleet).Safe := by
        rw [hzero]
        exact hm.nonzero
      exact iff_of_false (fun h => hnot h.2.1) fun h => h hlt hzero
    · have hmem := Service.Flying.getD_mem ⟨hlt, hzero⟩
      refine iff_of_true ⟨hlt.trans_le hm.flights, hm.planes _ hmem hzero, ?_⟩ fun _ => hzero
      cases htransmit : transmitInt process.toHost fuel s.heap
          (s.heap.mem.load (s.airplanes.getD which_plane.toNat 0 + 24)) with
      | error e => exact fun u hu => absurd hu List.not_mem_nil
      | ok h =>
        have hlive := hb.airplane _ hmem hzero
        have hsame := (held_transmitUll hd hb.held htransmit).2 _ hlive
        intro u hu
        simp only [if_neg hzero] at hu
        rcases List.mem_append.mp hu with hu | hu
        · rw [airportUses_congr hsame (hb.held.bounds hd hlive).2] at hu
          exact hm.codes _ hmem hzero u hu
        · exact rows_safe hm u hu
  · simp [hlt]

/-- **The uses of a command** are safe where it is proper. -/
theorem uses_safe_iff (hd : process.toHost.Disjoint) (hb : Books process live s l)
    (hm : Manifest fleet s) {c : Command} :
    (∀ u ∈ s.uses process.toHost fuel fleet c, u.Safe) ↔ s.Proper process.toHost fuel c := by
  cases c with
  | addPlane fromAir toAir arrival_time => exact addPlane_uses
  | sellTicket which_plane name price => exact sellTicket_uses hm
  | landPlane which_plane => exact iff_of_true (landPlane_uses hm) trivial
  | getGeneralStats => exact iff_of_true (fun u hu => absurd hu List.not_mem_nil) trivial
  | getPlaneInfo which_plane => exact getPlaneInfo_uses hd hb hm

/-! ## A round -/

/-- What a quiet landing frees are records of open tickets. -/
theorem freed_open {which_plane x : Word} {landed : List Word} {ts : List Sale} {h : Heap}
    (hquiet : Quiet host fuel which_plane landed ts h)
    (hx : x ∈ Service.freed host fuel which_plane (ts.map fun t => t.1) h) :
    ∃ t ∈ ts, t.1 = x ∧ t.2.1 ∉ landed := by
  induction ts generalizing h with
  | nil => exact absurd hx List.not_mem_nil
  | cons t ts ih =>
    have hrest : ∀ {h : Heap}, Quiet host fuel which_plane landed ts h →
        x ∈ Service.freed host fuel which_plane (ts.map fun t => t.1) h →
          ∃ u ∈ t :: ts, u.1 = x ∧ u.2.1 ∉ landed := fun hquiet hx => by
      obtain ⟨u, hu, hopen⟩ := ih hquiet hx
      exact ⟨u, List.mem_cons_of_mem t hu, hopen⟩
    rw [Quiet] at hquiet
    rw [List.map_cons, Service.freed] at hx
    split_ifs at hquiet hx with hfound
    · have hthis : x = t.1 → ∃ u ∈ t :: ts, u.1 = x ∧ u.2.1 ∉ landed := fun heq =>
        ⟨t, List.mem_cons_self, heq.symm, hquiet.1⟩
      cases hfree : free host fuel h t.1 with
      | error e =>
        rw [hfree] at hx
        exact hthis (List.mem_singleton.mp hx)
      | ok h' =>
        rw [hfree] at hx
        rcases List.mem_cons.mp hx with heq | hx
        · exact hthis heq
        · exact hrest (hquiet.2 h' (mapError_eq_ok hfree)) hx
    · exact hrest hquiet hx

/-- What `land_plane` frees is its plane, and no other. -/
theorem notMem_returned (hb : Books process live s l) {which_plane p : Word}
    (hquiet : ∀ h, s.landing process.toHost fuel which_plane = .ok h →
      Quiet process.toHost fuel which_plane l.landed (s.tickets l) h)
    (hp : p ∈ s.airplanes) (hp₀ : p ≠ 0) (hne : p ≠ s.airplanes.getD which_plane.toNat 0) :
    p ∉ s.returned process.toHost fuel which_plane := by
  unfold Service.returned
  split_ifs with hflying
  · refine fun hmem => (List.mem_cons.mp hmem).elim hne fun hmem => ?_
    cases hlanding : s.landing process.toHost fuel which_plane with
    | error e => exact absurd (hlanding ▸ hmem) List.not_mem_nil
    | ok h =>
      simp only [hlanding, ← (hb.map_tickets which_plane).1] at hmem
      obtain ⟨t, ht, rfl, hopen⟩ := freed_open (hquiet h hlanding) hmem
      have h32_16 : (32 : Word) ≠ 16 := by decide
      have hother : ((t.1, 32) : Word × Word) ≠ (t.1, 16) := fun heq =>
        h32_16 (congrArg Prod.snd heq)
      exact hb.held.fst_ne (hb.ticket t ht hopen).1 (hb.airplane _ hp hp₀) hother rfl
  · exact List.not_mem_nil

/-- The planes after a command are planes from before, or have their airports. -/
theorem Manifest.after (hd : process.toHost.Disjoint) (hb : Books process live s l)
    (hm : Manifest fleet s) (hstay : PlanesStay s s') {fleet' : List Word}
    (hnonzero : (0 : Word) ∉ fleet') (hplanes : ∀ p ∈ s'.airplanes, p ≠ 0 → p ∈ fleet')
    (hcodes : ∀ p ∈ s'.airplanes, p ≠ 0 → p ∉ s.airplanes →
      ∀ u ∈ Service.airportUses s'.heap.mem p, u.Safe)
    (hflights : s'.airplanes.length ≤ numPlanes) (htickets : s'.passengers.length ≤ numPassengers) :
    Manifest fleet' s' where
  nonzero := hnonzero
  planes := hplanes
  codes p hp hp₀ := by
    by_cases hold : p ∈ s.airplanes
    · rw [airportUses_congr (hstay p hold hp hp₀)
        (hb.held.bounds hd (hb.airplane p hold hp₀)).2]
      exact hm.codes p hold hp₀
    · exact hcodes p hp hp₀ hold
  flights := hflights
  tickets := htickets

/-- Another heap. -/
theorem Manifest.heap (hd : process.toHost.Disjoint) (hb : Books process live s l)
    (hm : Manifest fleet s) {h' : Heap} (hstay : PlanesStay s { s with heap := h' }) :
    Manifest fleet { s with heap := h' } :=
  hm.after hd hb hstay hm.nonzero hm.planes (fun _ hp _ hnot => absurd hp hnot) hm.flights
    hm.tickets

/-- The planes after `add_plane`. -/
theorem addPlane_airplanes {fromAir toAir arrival_time : Word}
    (hcall : s.addPlane host fuel fromAir toAir arrival_time = .ok s') :
    s'.airplanes = s.airplanes ++ s.added host fuel fromAir toAir ∧
      s'.passengers = s.passengers := by
  unfold Service.addPlane at hcall
  unfold Service.added
  split_ifs at hcall with hfrom hto hfull
  · simp [hfrom, ← Except.ok.inj hcall]
  · simp [hto, ← Except.ok.inj hcall]
  · simp [hfull, ← Except.ok.inj hcall]
  obtain ⟨⟨h₁, p⟩, hmalloc, hcall⟩ := bind_eq_ok hcall
  simp only at hcall
  obtain ⟨departing, -, hcall⟩ := bind_eq_ok hcall
  obtain ⟨arriving, -, hcall⟩ := bind_eq_ok hcall
  obtain ⟨h₂, -, hcall⟩ := bind_eq_ok hcall
  rw [← Except.ok.inj hcall, if_neg (by simp [hfrom, hto, hfull]), hmalloc]
  exact ⟨rfl, rfl⟩

/-- A code of 32 bits that is compared, as one of 64. -/
theorem code_safe {code : Word} (hnonneg : 0 ≤ code.toInt)
    (hlt : code.toInt < (numAirports : Int)) : (Use.airport (code.signExtend 64).toNat).Safe := by
  have hwide : (code.signExtend 64).toInt = code.toInt := BitVec.toInt_signExtend_of_le (by decide)
  rw [BitVec.toInt_eq_toNat_cond] at hwide
  rw [airport_safe]
  split_ifs at hwide <;> omega

section Commands

variable (hd : process.toHost.Disjoint) (hb : Books process live s l) (hm : Manifest fleet s)
  (hstay : PlanesStay s s')

include hd hb hm hstay

theorem Manifest.addPlane {fromAir toAir arrival_time : Word}
    (hproper : s.Proper process.toHost fuel (.addPlane fromAir toAir arrival_time))
    (hcall : s.addPlane process.toHost fuel fromAir toAir arrival_time = .ok s') :
    Manifest (fleet ++ s.added process.toHost fuel fromAir toAir) s' := by
  obtain ⟨hplanes, hpassengers⟩ := addPlane_airplanes hcall
  rcases addPlane_spec hd hb.held hb.airport hcall with rfl | ⟨hroom, p, hadded⟩
  · rw [List.self_eq_append_right.mp hplanes, List.append_nil]
    exact hm
  have hairplanes : s'.airplanes = s.airplanes ++ [p] := by rw [hadded.eq]
  have hp : s.added process.toHost fuel fromAir toAir = [p] :=
    List.append_cancel_left (hplanes.symm.trans hairplanes)
  have hpos : 0 < p.toNat := (hadded.held.bounds hd List.mem_cons_self).1
  have hp₀ : (0 : Word) ≠ p := fun heq => absurd hpos (by rw [← heq]; decide)
  obtain ⟨hfrom, hto⟩ := hproper (by rw [hp]; exact List.cons_ne_nil _ _)
  rcases added_cases process.toHost fuel s fromAir toAir with hnone | ⟨_, -, hfrom', hto', -⟩
  · exact absurd (hp.symm.trans hnone) (List.cons_ne_nil _ _)
  rw [hp]
  refine hm.after hd hb hstay ?_ ?_ ?_ ?_ (hpassengers ▸ hm.tickets)
  · rw [List.mem_append, List.mem_singleton]
    exact fun h => h.elim hm.nonzero hp₀
  · intro q hq hq₀
    rw [hairplanes] at hq
    refine List.mem_append.mpr ((List.mem_append.mp hq).imp_left fun hq => ?_)
    exact hm.planes q hq hq₀
  · intro q hq _ hnot u hu
    rw [hairplanes] at hq
    rw [List.mem_singleton.mp ((List.mem_append.mp hq).resolve_left hnot), Service.airportUses,
      hadded.arrival, hadded.departure] at hu
    rcases List.mem_pair.mp hu with rfl | rfl
    · exact code_safe hto hto'
    · exact code_safe hfrom hfrom'
  · rw [hairplanes, List.length_append]
    exact hroom

theorem Manifest.sellTicket {which_plane : Word} {name : List (BitVec 8)} {price : BitVec 64}
    (hcall : s.sellTicket process.toHost fuel which_plane name price = .ok s') :
    Manifest fleet s' := by
  have hspec := sellTicket_spec hd hb.held hcall
  split_ifs at hspec with hflying
  · obtain ⟨live', p, hsold⟩ := hspec
    have hairplanes : s'.airplanes = s.airplanes := by rw [hsold.eq]
    have hpassengers : s'.passengers = s.passengers ++ [p] := by rw [hsold.eq]
    refine hm.after hd hb hstay hm.nonzero (hairplanes ▸ hm.planes) ?_ (hairplanes ▸ hm.flights) ?_
    · exact fun q hq _ hnot => absurd (hairplanes ▸ hq) hnot
    · rw [hpassengers, List.length_append]
      exact hsold.room
  · exact hspec ▸ hm

theorem Manifest.landPlane {which_plane : Word}
    (hquiet : ∀ h, s.landing process.toHost fuel which_plane = .ok h →
      Quiet process.toHost fuel which_plane l.landed (s.tickets l) h)
    (hcall : s.landPlane process.toHost fuel which_plane = .ok s') :
    Manifest (fleet.filter fun p => p ∉ s.returned process.toHost fuel which_plane) s' := by
  unfold Service.landPlane at hcall
  split_ifs at hcall with hflying
  · obtain ⟨h₁, -, hcall⟩ := bind_eq_ok hcall
    obtain ⟨⟨h₂, money⟩, -, hcall⟩ := bind_eq_ok hcall
    have hs' := (Except.ok.inj hcall).symm
    have hairplanes : s'.airplanes = s.airplanes.set which_plane.toNat 0 := by
      rw [hs']
    have hpassengers : s'.passengers = s.passengers := by rw [hs']
    have hleft := (airplanes_set hb.planes hflying.2).1
    refine hm.after hd hb hstay (fun hmem => ?_) (fun p hp hp₀ => ?_) (fun p hp hp₀ hnot => ?_) ?_
      (hpassengers ▸ hm.tickets)
    · exact hm.nonzero (List.mem_of_mem_filter hmem)
    · obtain ⟨hmem, hne⟩ := hleft p (hairplanes ▸ hp) hp₀
      refine List.mem_filter.mpr ⟨hm.planes p hmem hp₀, ?_⟩
      exact decide_eq_true (notMem_returned hb hquiet hmem hp₀ hne)
    · exact absurd (hleft p (hairplanes ▸ hp) hp₀).1 hnot
    · rw [hairplanes, List.length_set]
      exact hm.flights
  · have hnone : s.returned process.toHost fuel which_plane = [] := if_neg hflying
    rw [hnone, ← Except.ok.inj hcall]
    simpa using hm

end Commands

/-- **A round keeps the manifest**, where its command is proper and its landing quiet. -/
theorem round_manifest (hd : process.toHost.Disjoint) (hb : Books process live s l)
    (hm : Manifest fleet s) {c : Command}
    (hquiet : ∀ which_plane h, c = .landPlane which_plane →
      s.landing process.toHost fuel which_plane = .ok h →
        Quiet process.toHost fuel which_plane l.landed (s.tickets l) h)
    (hproper : s.Proper process.toHost fuel c) (hcall : round process.toHost fuel s c = .ok s') :
    Manifest (s.fleetAfter process.toHost fuel fleet c) s' := by
  obtain ⟨-, -, hstay⟩ := round_books hd hb hquiet hcall
  obtain ⟨-, -, hcall⟩ := bind_eq_ok hcall
  cases c with
  | addPlane fromAir toAir arrival_time => exact hm.addPlane hd hb hstay hproper hcall
  | sellTicket which_plane name price => exact hm.sellTicket hd hb hstay hcall
  | landPlane which_plane =>
    exact hm.landPlane hd hb hstay (fun h => hquiet which_plane h rfl) hcall
  | getGeneralStats =>
    obtain ⟨h', rfl, -⟩ := getGeneralStats_spec hd hb.held hcall
    exact hm.heap hd hb hstay
  | getPlaneInfo which_plane =>
    obtain ⟨h', rfl, -⟩ := getPlaneInfo_spec hd hb.held hcall
    exact hm.heap hd hb hstay

/-! ## A run -/

/-- A run from the books. -/
theorem run_safe_iff (hd : process.toHost.Disjoint) {cs : List Command} :
    ∀ {s : Service} {l : Ledger} {live : List (Word × Word)} {fleet : List Word},
      Books process live s l → Manifest fleet s → QuietRun process.toHost fuel s l cs →
        (UsesSafe process.toHost fuel s fleet cs ↔ ProperRun process.toHost fuel s cs) := by
  induction cs with
  | nil => exact fun _ _ _ => Iff.rfl
  | cons c cs ih =>
    intro s l live fleet hb hm hquiet
    rw [UsesSafe, ProperRun, uses_safe_iff hd hb hm]
    refine and_congr_right fun hproper => forall_congr' fun s' => imp_congr_right fun hround => ?_
    obtain ⟨_, hvalid, -⟩ := bind_eq_ok hround
    obtain ⟨live', hb', -⟩ := round_books hd hb hquiet.1 hround
    have hm' := round_manifest hd hb hm hquiet.1 (hproper (mapError_eq_ok hvalid)) hround
    exact ih hb' hm' (hquiet.2 s' hround)

/-- The counters at the start. -/
theorem boot_empty {mem : ByteMem} (hcall : boot fuel process mem = .ok s) :
    s.airplanes = [] ∧ s.passengers = [] := by
  obtain ⟨_, -, hcall⟩ := bind_eq_ok hcall
  obtain ⟨_, -, hcall⟩ := bind_eq_ok hcall
  obtain ⟨_, -, hcall⟩ := bind_eq_ok hcall
  obtain ⟨_, -, hcall⟩ := bind_eq_ok hcall
  obtain ⟨_, -, hcall⟩ := bind_eq_ok hcall
  rw [← Except.ok.inj hcall]
  exact ⟨rfl, rfl⟩

theorem boot_manifest {mem : ByteMem} (hcall : boot fuel process mem = .ok s) : Manifest [] s := by
  obtain ⟨hairplanes, hpassengers⟩ := boot_empty hcall
  refine ⟨List.not_mem_nil, ?_, ?_, ?_, ?_⟩
  · simp [hairplanes]
  · simp [hairplanes]
  · simp [hairplanes]
  · simp [hpassengers]

/-- **The indices and the pointers of a run** with quiet landings are safe where no airport that is
given to `add_plane` is negative, no ticket is sold behind the last place, and no flight that has
landed is asked for. -/
theorem uses_iff {process : Process} (hd : process.toHost.Disjoint) {fuel : Nat} {mem : ByteMem}
    {s₀ : Service} {cs : List Command} (hboot : boot fuel process mem = .ok s₀)
    (hquiet : QuietRun process.toHost fuel s₀ ⟨[], []⟩ cs) :
    UsesSafe process.toHost fuel s₀ [] cs ↔ ProperRun process.toHost fuel s₀ cs := by
  obtain ⟨live, hb⟩ := boot_books hd hboot
  exact run_safe_iff hd hb (boot_manifest hboot) hquiet

/-- A plane, and a ticket for it. -/
theorem uses_iff_sale : ∃ s, boot heapSize demoProcess (fun _ => 0) = .ok s ∧
    UsesSafe demoProcess.toHost heapSize s [] [.addPlane 0 1 0, .sellTicket 0 [] 5] := by
  obtain ⟨s, -, hboot, -⟩ :=
    @boot_returns heapSize demoProcess demoHost_disjoint (fun _ => 0) (Nat.le_refl _)
  have hquiet : QuietRun demoProcess.toHost heapSize s ⟨[], []⟩
      [.addPlane 0 1 0, .sellTicket 0 [] 5] :=
    ⟨fun _ _ hc => (nomatch hc), fun _ _ => ⟨fun _ _ hc => (nomatch hc), fun _ _ => trivial⟩⟩
  refine ⟨s, hboot, (uses_iff demoHost_disjoint hboot hquiet).mpr ?_⟩
  refine ⟨fun _ _ => by decide, fun s' hround => ⟨fun _ _ _ => ?_, fun _ _ => trivial⟩⟩
  obtain ⟨-, -, hcall⟩ := bind_eq_ok hround
  rw [(addPlane_airplanes hcall).2, (boot_empty hboot).2]
  decide

/-- **An airport `-1`**, which is what `read_int` makes of `4294967295`. -/
theorem airport_negative : ∃ s, boot heapSize demoProcess (fun _ => 0) = .ok s ∧
    ¬ UsesSafe demoProcess.toHost heapSize s [] [.addPlane (-1) 0 0] := by
  obtain ⟨s, live, hboot, hready⟩ :=
    @boot_returns heapSize demoProcess demoHost_disjoint (fun _ => 0) (Nat.le_refl _)
  obtain ⟨live', hb⟩ := @boot_books heapSize demoProcess s demoHost_disjoint _ hboot
  have hvalid := mapError_eq_ok (hready.validate demoHost_disjoint (Nat.le_refl _))
  obtain ⟨h, p, hmalloc, -⟩ :=
    @Ready.malloc demoHost s.heap 32 live _ heapSize demoHost_disjoint hready (Nat.le_refl _)
      (by decide)
  have hadded : s.added demoProcess.toHost heapSize (-1) 0 = [p] := by
    unfold Service.added
    rw [(boot_empty hboot).1, if_neg (by decide)]
    exact hmalloc ▸ rfl
  refine ⟨s, hboot, fun hsafe => ?_⟩
  have hproper := (uses_safe_iff demoHost_disjoint hb (boot_manifest hboot)).mp (hsafe.1 hvalid)
  exact absurd (hproper (by rw [hadded]; exact List.cons_ne_nil _ _)).1 (by decide)

end Quals2017.Divided
