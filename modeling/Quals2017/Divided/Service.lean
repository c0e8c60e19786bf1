import Quals2017.Divided.Payloads

/-!
# The airline service (`divided/ConsoleApplication2/ConsoleApplication2/service.c`, `cqe.h:7-41`)

Planes are added, tickets are sold for them, and a landing takes the prices of the tickets of its
flight. The records are blocks of the bucket allocator.

* A `passenger` has 16 bytes (`ticket_cost` at 0, `pass_name` at 8, `flight_number` at 12), a
  `plane` 32 (`arrival_airport_code` at 0, `departure_airport_code` at 8, `arrival_time` at 16,
  `flight_number` at 24), an `airport` 12 (`name` at 0, `pending_departures` at 4,
  `pending_arrivals` at 8). They are read and written in the memory.
* The members of `*sttp`, and the pointers in `airports`, are those of `Service`. The two blocks are
  taken from the heap as in the source.
* What is read is an argument: a number as the word that `read_int` returns, a line as its bytes.
* `Crash` has the ways in which a command does not return: those of the allocator, a member through
  `NULL`, and an index outside of an array.
-/

namespace Quals2017.Divided

open Quals2017.Lib Quals2017.Lib.ByteMem

/-- `NUMAIRPORTS`. -/
def numAirports : Nat := 15

/-- `NUM_PLANES`. -/
def numPlanes : Nat := 512

/-- `NUM_PASSENGERS`. -/
def numPassengers : Nat := 512

/-- `STR_TERM`. -/
def strTerm : BitVec 8 := 0xff

/-- What the process gives: its cookie and its pages, the address of `VirtualAlloc`, and that of
`user_login`. -/
structure Process extends Host where
  virtualAlloc : Word
  userLogin : Word

/-- The ways in which a command does not return. -/
inductive Crash
  | stop (e : Stop)
  | null
  | outside
  deriving DecidableEq, Repr

/-- The state of the service. The lists are the first `num_passengers` of `sttp->passengers`, the
first `num_flights` of `sttp->airplanes`, and `airports`. -/
structure Service where
  heap : Heap
  sttp : Word
  airports : Word
  airport : List Word
  passengers : List Word
  airplanes : List Word
  money_collected : Word
  user_login : Word

/-- A number of 64 bits in memory. -/
def load64 (m : ByteMem) (p : Word) : BitVec 64 := (m.load (p + 4) ++ m.load p : BitVec (32 + 32))

def store64 (m : ByteMem) (p : Word) (v : BitVec 64) : ByteMem :=
  (m.store p (v.extractLsb' 0 32)).store (p + 4) (v.extractLsb' 32 32)

variable {m m' : ByteMem} {p : Word}

theorem onlyOn_store64 (m : ByteMem) (v : BitVec 64) (hp : p.toNat + 8 < 2 ^ 32) :
    OnlyOn m (store64 m p v) p.toNat 8 := by
  have h₄ : (p + 4).toNat = p.toNat + 4 := @toNat_add_ofNat p 4 (by omega)
  exact ((onlyOn_store m _ (by omega)).mono (by omega) (by omega)).trans
    ((onlyOn_store _ _ (by omega)).mono (by omega) (by omega))

theorem load64_congr (h : SameOn m m' p.toNat 8) (hp : p.toNat + 8 < 2 ^ 32) :
    load64 m' p = load64 m p := by
  have h₄ : (p + 4).toNat = p.toNat + 4 := @toNat_add_ofNat p 4 (by omega)
  unfold load64
  rw [h.load_eq (by omega) (by omega) (by omega), h.load_eq (by omega) (by omega) (by omega)]

theorem load64_store64 (m : ByteMem) (v : BitVec 64) (hp : p.toNat + 8 < 2 ^ 32) :
    load64 (store64 m p v) p = v := by
  have h₄ : (p + 4).toNat = p.toNat + 4 := @toNat_add_ofNat p 4 (by omega)
  unfold load64 store64
  rw [load_store_self, load_store_ne _ (by omega) (by omega) (by omega), load_store_self]
  ext i hi
  simp only [BitVec.getElem_append, BitVec.getElem_extractLsb', Nat.zero_add]
  rw [← BitVec.getLsbD_eq_getElem hi]
  split
  · rfl
  · exact congrArg _ (by omega)

/-- The numbers at the start of a record. -/
theorem onlyOn_plane (m : ByteMem) (a b c : BitVec 64) (hp : p.toNat + 32 < 2 ^ 32) :
    OnlyOn m (store64 (store64 (store64 m p a) (p + 8) b) (p + 16) c) p.toNat 32 := by
  have h₈ : (p + 8).toNat = p.toNat + 8 := @toNat_add_ofNat p 8 (by omega)
  have h₁₆ : (p + 16).toNat = p.toNat + 16 := @toNat_add_ofNat p 16 (by omega)
  have hstore := fun (m : ByteMem) {q : Word} (v : BitVec 64) (hlo : p.toNat ≤ q.toNat)
      (hhi : q.toNat + 8 ≤ p.toNat + 32) =>
    (onlyOn_store64 m v (p := q) (by omega)).mono hlo hhi
  exact (hstore m a (by omega) (by omega)).trans
    ((hstore _ b (by omega) (by omega)).trans (hstore _ c (by omega) (by omega)))

theorem load64_plane (m : ByteMem) (a b c : BitVec 64) (hp : p.toNat + 32 < 2 ^ 32) :
    load64 (store64 (store64 (store64 m p a) (p + 8) b) (p + 16) c) p = a ∧
      load64 (store64 (store64 (store64 m p a) (p + 8) b) (p + 16) c) (p + 8) = b := by
  have h₈ : (p + 8).toNat = p.toNat + 8 := @toNat_add_ofNat p 8 (by omega)
  have h₁₆ : (p + 16).toNat = p.toNat + 16 := @toNat_add_ofNat p 16 (by omega)
  have hother := fun (m : ByteMem) {q : Word} (v : BitVec 64) {r : Word} (hq : q.toNat + 8 < 2 ^ 32)
      (hr : r.toNat + 8 ≤ q.toNat) => @load64_congr m (store64 m q v) r
    ((onlyOn_store64 m v hq).sameOn (Or.inl hr)) (by omega)
  constructor
  · rw [hother _ c (by omega) (by omega), hother _ b (by omega) (by omega),
      load64_store64 _ _ (by omega)]
  · rw [hother _ c (by omega) (by omega), load64_store64 _ _ (by omega)]

/-- The members of an airport. -/
theorem onlyOn_airport (m : ByteMem) {a : Word} (pointer : Word) (ha : a.toNat + 12 < 2 ^ 32) :
    OnlyOn m (((m.store a pointer).store (a + 4) 0).store (a + 8) 0) a.toNat 12 := by
  have h₄ : (a + 4).toNat = a.toNat + 4 := @toNat_add_ofNat a 4 (by omega)
  have h₈ : (a + 8).toNat = a.toNat + 8 := @toNat_add_ofNat a 8 (by omega)
  exact ((onlyOn_store _ _ (by omega)).mono (Nat.le_refl _) (by omega)).trans
    (((onlyOn_store _ _ (by omega)).mono (by omega) (by omega)).trans
      ((onlyOn_store _ _ (by omega)).mono (by omega) (by omega)))

theorem onlyOn_name (m : ByteMem) {name : List (BitVec 8)} (hname : name.length ≤ 4)
    (hp : p.toNat + 4 < 2 ^ 32) : OnlyOn m (m.write p name) p.toNat 4 :=
  (onlyOn_write m name (by omega)).mono (Nat.le_refl _) (Nat.add_le_add_left hname _)

/-! ## Calls -/

section Calls

variable (host : Host) (fuel : Nat)

/-- `my_malloc`. -/
def malloc (h : Heap) (size : Word) : Except Crash (Heap × Word) :=
  (myMalloc host fuel h size).mapError .stop

/-- `my_free`. -/
def free (h : Heap) (p : Word) : Except Crash Heap := (myFree host fuel h p).mapError .stop

/-- The digits of `int_to_array`, the last one first. A number of 64 bits has at most 20. -/
def digits : Nat → Nat → List (BitVec 8)
  | 0, _ => []
  | n + 1, res => BitVec.ofNat 8 (res % 10 + 48) :: if res / 10 = 0 then [] else digits n (res / 10)

theorem digits_length_le : ∀ n res, (digits n res).length ≤ n
  | 0, _ => Nat.le_refl 0
  | n + 1, res => by
    rw [digits, List.length_cons]
    split_ifs
    · exact Nat.succ_le_succ (Nat.zero_le n)
    · exact Nat.succ_le_succ (digits_length_le n (res / 10))

/-- `int_to_array`. -/
def intToArray (h : Heap) (a : BitVec 64) : Except Crash (Heap × Word) := do
  let text := (digits 20 a.toNat).reverse ++ [strTerm]
  let (h, ret) ← malloc host fuel h (BitVec.ofNat 32 text.length)
  return ({ h with mem := h.mem.write ret text }, ret)

/-- `transmit_ull`. `transmit_int` is the same, of 32 bits. -/
def transmitUll (h : Heap) (a : BitVec 64) : Except Crash Heap := do
  let (h, to_str) ← intToArray host fuel h a
  free host fuel h to_str

def transmitInt (h : Heap) (a : Word) : Except Crash Heap :=
  transmitUll host fuel h (a.setWidth 64)

/-- `read_line`: a line of input, up to `buf_len + 1` bytes of it. -/
def readLine (h : Heap) (buf_len : Nat) (line : List (BitVec 8)) : Except Crash (Heap × Word) := do
  let (h, tbuf) ← malloc host fuel h (BitVec.ofNat 32 (buf_len + 3))
  return ({ h with mem := h.mem.write tbuf (line.take (buf_len + 1) ++ [strTerm]) }, tbuf)

/-! ## The start -/

/-- `create_airport`. -/
def createAirport (h : Heap) (name : List (BitVec 8)) : Except Crash (Heap × Word) := do
  let (h, airplane) ← malloc host fuel h 12
  let (h, pointer) ← malloc host fuel h 4
  let m := h.mem.store airplane pointer
  let m := m.store (airplane + 4) 0
  let m := m.store (airplane + 8) 0
  return ({ h with mem := m.write pointer name }, airplane)

/-- The airports, one after the other. -/
def createAirports : List (List (BitVec 8)) → Heap → Except Crash (Heap × List Word)
  | [], h => .ok (h, [])
  | name :: names, h => do
    let (h, a) ← createAirport host fuel h name
    let (h, rest) ← createAirports names h
    return (h, a :: rest)

/-- The names of the airports, each with `\xff` behind it. -/
def airportNames : List (List (BitVec 8)) :=
  ["SFO", "LAX", "PHL", "LIH", "HNL", "AUG", "ATL", "YYV", "CDG", "TLV", "LOG", "LON", "SEA", "DFW",
    "MIA"].map fun name => name.toList.map (fun c => BitVec.ofNat 8 c.toNat) ++ [strTerm]

/-- The value that `init` gives to `money_collected`: the address of `VirtualAlloc`, made
unrecognisable. -/
def openingMoney (virtualAlloc : Word) : Word :=
  (virtualAlloc ^^^ 0xffffff) + BitVec.ofNat 32 0xc340c483489448

/-- `main` up to its loop, with `init`. -/
def boot (process : Process) (mem : ByteMem) : Except Crash Service := do
  let (h, sttp) ← malloc process.toHost fuel ⟨mem, [], 0⟩ 4232
  (validateHeap process.toHost fuel h).mapError .stop
  let (h, airports) ← malloc process.toHost fuel h 60
  let (h, airport) ← createAirports process.toHost fuel airportNames h
  (validateHeap process.toHost fuel h).mapError .stop
  return { heap := h, sttp, airports, airport, passengers := [], airplanes := []
           money_collected := openingMoney process.virtualAlloc
           user_login := process.userLogin ^^^ 0xffffff }

end Calls

/-! ## Commands -/

namespace Service

/-- `airports[code]`. -/
def airportAt (s : Service) (code : Nat) : Except Crash Word :=
  match s.airport[code]? with
  | some a => .ok a
  | none => .error .outside

/-- The flights that have not landed: neither `which_plane >= sttp->num_flights` nor
`sttp->airplanes[which_plane] == 0`. -/
def Flying (s : Service) (which_plane : Word) : Prop :=
  which_plane.toNat < s.airplanes.length ∧ s.airplanes.getD which_plane.toNat 0 ≠ 0

instance (s : Service) (which_plane : Word) : Decidable (s.Flying which_plane) :=
  inferInstanceAs (Decidable (_ ∧ _))

variable (host : Host) (fuel : Nat)

/-- `add_plane`. The airports are compared as signed numbers, and a negative one is an index that is
outside. -/
def addPlane (s : Service) (fromAir toAir arrival_time : Word) : Except Crash Service :=
  if (numAirports : Int) ≤ fromAir.toInt then .ok s
  else if (numAirports : Int) ≤ toAir.toInt then .ok s
  else if numPlanes ≤ s.airplanes.length then .ok s
  else do
    let (h, airplane) ← malloc host fuel s.heap 32
    let m := store64 h.mem airplane (toAir.signExtend 64)
    let m := store64 m (airplane + 8) (fromAir.signExtend 64)
    let m := store64 m (airplane + 16) (arrival_time.signExtend 64)
    let departing ← s.airportAt fromAir.toNat
    let arriving ← s.airportAt toAir.toNat
    let m := m.store (arriving + 8) (m.load (arriving + 8) + 1)
    let m := m.store (departing + 4) (m.load (departing + 4) + 1)
    let h ← transmitInt host fuel { h with mem := m } (BitVec.ofNat 32 s.airplanes.length)
    let m := h.mem.store (airplane + 24) (BitVec.ofNat 32 s.airplanes.length)
    return { s with heap := { h with mem := m }, airplanes := s.airplanes ++ [airplane] }

/-- `sell_ticket`. The source does not compare `num_passengers` with `NUM_PASSENGERS`. -/
def sellTicket (s : Service) (which_plane : Word) (name : List (BitVec 8)) (price : BitVec 64) :
    Except Crash Service :=
  if s.Flying which_plane then do
    let (h, p) ← malloc host fuel s.heap 16
    let h := { h with mem := h.mem.store (p + 12) which_plane }
    let (h, pass_name) ← readLine host fuel h 512 name
    let m := store64 (h.mem.store (p + 8) pass_name) p price
    if s.passengers.length < numPassengers then
      return { s with heap := { h with mem := m }, passengers := s.passengers ++ [p] }
    else .error .outside
  else .ok s

/-- The loop of `land_plane`. `money_collected` has 32 bits, and `sttp->passengers[i]` stays. -/
def landLoop (which_plane : Word) : List Word → Heap → Word → Except Crash (Heap × Word)
  | [], h, money => .ok (h, money)
  | p :: rest, h, money =>
    if p ≠ 0 ∧ h.mem.load (p + 12) = which_plane then
      match free host fuel h p with
      | .error e => .error e
      | .ok h' => landLoop which_plane rest h' (money + (load64 h.mem p).setWidth 32)
    else landLoop which_plane rest h money

/-- `land_plane` up to its loop. -/
def landing (s : Service) (which_plane : Word) : Except Crash Heap := do
  let landed := s.airplanes.getD which_plane.toNat 0
  let arrival ← s.airportAt (load64 s.heap.mem landed).toNat
  let departing ← s.airportAt (load64 s.heap.mem (landed + 8)).toNat
  let m := s.heap.mem.store (arrival + 8) (s.heap.mem.load (arrival + 8) - 1)
  let m := m.store (departing + 4) (m.load (departing + 4) - 1)
  free host fuel { s.heap with mem := m } landed

/-- `land_plane`. -/
def landPlane (s : Service) (which_plane : Word) : Except Crash Service :=
  if s.Flying which_plane then do
    let h ← s.landing host fuel which_plane
    let (h, money) ← landLoop host fuel which_plane s.passengers h s.money_collected
    return { s with heap := h, money_collected := money
                    airplanes := s.airplanes.set which_plane.toNat 0 }
  else .ok s

/-- `get_general_stats`. -/
def getGeneralStats (s : Service) : Except Crash Service := do
  let h ← transmitUll host fuel s.heap (BitVec.ofNat 64 s.airplanes.length)
  let h ← transmitInt host fuel h (BitVec.ofNat 32 s.passengers.length)
  let h ← transmitUll host fuel h (s.money_collected.setWidth 64)
  let h ← transmitUll host fuel h (s.user_login.setWidth 64)
  return { s with heap := h }

/-- The loop of `get_plane_info`. -/
def infoLoop (which_plane : Word) : List Word → Heap → Except Crash Heap
  | [], h => .ok h
  | p :: rest, h =>
    if p ≠ 0 ∧ h.mem.load (p + 12) = which_plane then
      match transmitInt host fuel h ((load64 h.mem p).setWidth 32) with
      | .error e => .error e
      | .ok h => infoLoop which_plane rest h
    else infoLoop which_plane rest h

/-- `get_plane_info`. It does not look whether the plane has landed. -/
def getPlaneInfo (s : Service) (which_plane : Word) : Except Crash Service :=
  if which_plane.toNat < s.airplanes.length then
    let airplane := s.airplanes.getD which_plane.toNat 0
    if airplane = 0 then .error .null
    else do
      let h ← transmitInt host fuel s.heap (s.heap.mem.load (airplane + 24))
      let _ ← s.airportAt (load64 h.mem airplane).toNat
      let _ ← s.airportAt (load64 h.mem (airplane + 8)).toNat
      let h ← infoLoop host fuel which_plane s.passengers h
      return { s with heap := h }
  else .ok s

end Service

/-- The commands. -/
inductive Command
  | addPlane (fromAir toAir arrival_time : Word)
  | sellTicket (which_plane : Word) (name : List (BitVec 8)) (price : BitVec 64)
  | landPlane (which_plane : Word)
  | getGeneralStats
  | getPlaneInfo (which_plane : Word)

/-- A round of the loop of `main`. -/
def round (host : Host) (fuel : Nat) (s : Service) (c : Command) : Except Crash Service := do
  (validateHeap host fuel s.heap).mapError .stop
  match c with
  | .addPlane fromAir toAir arrival_time => s.addPlane host fuel fromAir toAir arrival_time
  | .sellTicket which_plane name price => s.sellTicket host fuel which_plane name price
  | .landPlane which_plane => s.landPlane host fuel which_plane
  | .getGeneralStats => s.getGeneralStats host fuel
  | .getPlaneInfo which_plane => s.getPlaneInfo host fuel which_plane

/-! ## The tickets -/

/-- What a run has done: the tickets that were sold, each with its flight and its price, in the
order of `sttp->passengers`, and the flights that have landed. -/
structure Ledger where
  sales : List (Word × BitVec 64)
  landed : List Word

namespace Ledger

/-- After a command that returns. -/
def after (l : Ledger) (s : Service) : Command → Ledger
  | .sellTicket which_plane _ price =>
    if s.Flying which_plane then { l with sales := l.sales ++ [(which_plane, price)] } else l
  | .landPlane which_plane =>
    if s.Flying which_plane then { l with landed := l.landed ++ [which_plane] } else l
  | _ => l

theorem after_sell {l : Ledger} {s : Service} {which_plane : Word} {name : List (BitVec 8)}
    {price : BitVec 64} (h : s.Flying which_plane) : l.after s (.sellTicket which_plane name price) =
      { l with sales := l.sales ++ [(which_plane, price)] } :=
  if_pos h

theorem after_sell_none {l : Ledger} {s : Service} {which_plane : Word} {name : List (BitVec 8)}
    {price : BitVec 64} (h : ¬ s.Flying which_plane) :
    l.after s (.sellTicket which_plane name price) = l :=
  if_neg h

theorem after_land {l : Ledger} {s : Service} {which_plane : Word} (h : s.Flying which_plane) :
    l.after s (.landPlane which_plane) = { l with landed := l.landed ++ [which_plane] } :=
  if_pos h

theorem after_land_none {l : Ledger} {s : Service} {which_plane : Word}
    (h : ¬ s.Flying which_plane) : l.after s (.landPlane which_plane) = l :=
  if_neg h

/-- The prices of the tickets sold for a flight. -/
def prices (l : Ledger) (flight : Word) : Nat :=
  ((l.sales.filter fun sale => sale.1 = flight).map fun sale => sale.2.toNat).sum

/-- The prices of the tickets sold for the flights that have landed. -/
def revenue (l : Ledger) : Nat := (l.landed.map l.prices).sum

end Ledger

/-- The rounds of `main`, with what they have done. -/
def serve (host : Host) (fuel : Nat) :
    Service → Ledger → List Command → Except Crash (Service × Ledger)
  | s, l, [] => .ok (s, l)
  | s, l, c :: cs => do
    let s' ← round host fuel s c
    serve host fuel s' (l.after s c) cs

end Quals2017.Divided
