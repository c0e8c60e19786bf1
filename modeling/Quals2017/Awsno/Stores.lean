import Mathlib.Tactic.SplitIfs

/-!
# The three stores (`awsno/vehicles.adb`, `awsno/planes.adb`, `awsno/trains.adb`)

Each package keeps a `Doubly_Linked_Lists` list and beside it `list_len`, against which `delete` and
`update` check the index the client sends.

* `add` reads the fields, appends the record and counts it.
* `delete` walks a cursor to the chosen entry and deletes it.
* `update` of a vehicle or plane changes a copy of the entry. `update_train` deletes the entry, asks
  for a new name and appends the copy, without a look at `list_len`.

The procedures are `Act`s: an exception ends them and keeps what they have done. What they read of
the socket is apart from what they do to the store (`onInput`). Prompts and listings are output and
left out. `Lib` stands for the library functions that read numbers, about which nothing is assumed.
-/

namespace Quals2017.Awsno

/-- A string, a byte for a `Character`. -/
abbrev Str := List UInt8

/-- `Integer'value` and `Float'value`, where `none` is `Constraint_Error`, and `atoi`. -/
structure Lib (F : Type) where
  integerValue : Str → Option Int
  floatValue : Str → Option F
  atoi : Str → Int

/-- `vehicle_data`. -/
structure Vehicle (F : Type) where
  make : Str
  model : Str
  cost : F
  mpg : F
  year : Int

/-- `plane_data`. -/
structure Plane (F : Type) where
  manufacture : Str
  model : Str
  cost : F
  mph : F
  passengers : Int

/-- `train_data`. -/
structure Train (F : Type) where
  name : Str
  model : Str
  t : Str
  speed : F
  passengers : Int

/-- A list and its `list_len`. -/
structure Store (α : Type) where
  list : List α
  listLen : Int

/-- A store before the first request. -/
def Store.empty {α : Type} : Store α := ⟨[], 0⟩

/-- `Integer'Last`. -/
def integerLast : Int := 2147483647

/-! ## Cursors of `Doubly_Linked_Lists` -/

section Cursor

variable {α : Type} (l : List α)

/-- `first`; `none` is `No_Element`. -/
def first : Option Nat := if l.isEmpty then none else some 0

/-- `next`, which leaves `No_Element` alone. -/
def next : Option Nat → Option Nat
  | none => none
  | some i => if i + 1 < l.length then some (i + 1) else none

/-- `while tslen < choice loop ps := next(ps)`, with the given number of rounds left. -/
def walk : Nat → Option Nat → Option Nat
  | 0, ps => ps
  | n + 1, ps => walk n (next l ps)

/-- The cursor `delete` and `update` walk to, from `tslen = 1`. -/
def cursorAt (choice : Int) : Option Nat := walk l (choice - 1).toNat (first l)

end Cursor

/-- `for index in iterate loop if tslen = choice then ps := index; exit`, at position `i`. -/
def seek {α : Type} (choice : Int) : List α → Nat → Int → Option Nat
  | [], _, _ => none
  | _ :: l, i, tslen => if tslen = choice then some i else seek choice l (i + 1) (tslen + 1)

/-! ## Procedures -/

/-- The exceptions of the procedures. -/
inductive Raised where
  | constraintError
  | socketError
  deriving DecidableEq

/-- A procedure over a state that an exception does not undo. -/
def Act (σ β : Type) : Type := σ → Except Raised β × σ

/-- One procedure after another. -/
def Act.bind {σ β γ : Type} (p : Act σ β) (f : β → Act σ γ) : Act σ γ := fun s =>
  match p s with
  | (.ok b, s') => f b s'
  | (.error e, s') => (.error e, s')

instance {σ : Type} : Monad (Act σ) where
  pure b := fun s => (.ok b, s)
  bind := Act.bind

section Act

variable {σ ι α β : Type}

/-- `raise`. -/
def raise (e : Raised) : Act σ β := fun s => (.error e, s)

/-- `Constraint_Error` where a value is missing. -/
def checked : Option β → Act σ β
  | some b => pure b
  | none => raise .constraintError

/-- A procedure that only reads the socket. -/
def onInput (p : Act ι β) : Act (ι × Store α) β := fun w => ((p w.1).1, (p w.1).2, w.2)

/-- `list_len` and the list. -/
def getStore : Act (ι × Store α) (Store α) := fun w => (.ok w.2, w)

/-- `append`. -/
def appendEntry (x : α) : Act (ι × Store α) Unit := fun w =>
  (.ok (), w.1, { w.2 with list := w.2.list ++ [x] })

/-- `list_len := list_len + 1`, with the overflow check of `Integer`. -/
def countEntry : Act (ι × Store α) Unit := fun w =>
  if w.2.listLen + 1 > integerLast then (.error .constraintError, w)
  else (.ok (), w.1, { w.2 with listLen := w.2.listLen + 1 })

/-- `delete`, of the entry at a cursor. -/
def deleteEntry (ps : Option Nat) : Act (ι × Store α) Unit := fun w =>
  match ps with
  | none => (.error .constraintError, w)
  | some i => (.ok (), w.1, { w.2 with list := w.2.list.eraseIdx i })

/-- `element`. -/
def elementAt (ps : Option Nat) : Act (ι × Store α) α := fun w =>
  (checked (ps.bind fun i => w.2.list[i]?) w)

/-- `list.append( x ); list_len := list_len + 1`. -/
def addEntry (x : α) : Act (ι × Store α) Unit := do
  appendEntry x
  countEntry

/-- From `if choice > list_len or choice <= 0` to `delete( list, ps)`. -/
def deleteAt (choice : Int) : Act (ι × Store α) Unit := do
  let s ← getStore
  if choice > s.listLen ∨ choice ≤ 0 then pure ()
  else deleteEntry (cursorAt s.list choice)

end Act

/-! ## Vehicles and planes -/

/-- `text_io.read_line`: the next bytes from the socket. -/
def readLine : Act (List Str) Str := fun input =>
  match input with
  | [] => (.error .socketError, [])
  | ts :: input => (.ok ts, input)

/-- `ts(1..tslen-1)`. -/
def cut (ts : Str) : Str := ts.dropLast

/-- `ts(1) = 'y'`. -/
def isYes (ts : Str) : Bool := ts.head? = some 121

section Socket

variable {F : Type} (lib : Lib F)

/-- `Integer'value( ts(1..tslen-1) )` of the next line. -/
def readInteger : Act (List Str) Int := do
  let ts ← readLine
  checked (lib.integerValue (cut ts))

/-- `Float'value( ts(1..tslen-1) )` of the next line. -/
def readFloat : Act (List Str) F := do
  let ts ← readLine
  checked (lib.floatValue (cut ts))

/-- `to_unbounded_string( ts(1..tslen-1) )` of the next line. -/
def readString : Act (List Str) Str := do
  let ts ← readLine
  pure (cut ts)

/-- The question whether to print the list, and the index. -/
def askIndex : Act (List Str) Int := do
  let _ ← readLine
  readInteger lib

/-- `Update ... (y/n)`: the new value of a field, or the old one. -/
def askField {β : Type} (read : Act (List Str) β) (old : β) : Act (List Str) β := do
  let ts ← readLine
  if isYes ts then read else pure old

/-- The record `add_vehicle` reads. -/
def newVehicle : Act (List Str) (Vehicle F) := do
  let make ← readString
  let model ← readString
  let year ← readInteger lib
  let mpg ← readFloat lib
  let cost ← readFloat lib
  pure { make, model, year, mpg, cost }

/-- `add_vehicle`. -/
def addVehicle : Act (List Str × Store (Vehicle F)) Unit := do
  let nv ← onInput (newVehicle lib)
  addEntry nv

/-- `delete_vehicle`. -/
def deleteVehicle : Act (List Str × Store (Vehicle F)) Unit := do
  let choice ← onInput (askIndex lib)
  deleteAt choice

/-- `update_vehicle`: `tv` is a copy, and is not put back. -/
def updateVehicle : Act (List Str × Store (Vehicle F)) Unit := do
  let choice ← onInput (askIndex lib)
  let s ← getStore
  if choice > s.listLen ∨ choice ≤ 0 then pure ()
  else do
    let tv ← elementAt (cursorAt s.list choice)
    let make ← onInput (askField readString tv.make)
    let model ← onInput (askField readString tv.model)
    let year ← onInput (askField (readInteger lib) tv.year)
    let cost ← onInput (askField (readFloat lib) tv.cost)
    let mpg ← onInput (askField (readFloat lib) tv.mpg)
    let _tv : Vehicle F := { make, model, year, cost, mpg }
    pure ()

/-- The record `add_plane` reads. -/
def newPlane : Act (List Str) (Plane F) := do
  let manufacture ← readString
  let passengers ← readInteger lib
  let model ← readString
  let cost ← readFloat lib
  let mph ← readFloat lib
  pure { manufacture, passengers, model, cost, mph }

/-- `add_plane`. -/
def addPlane : Act (List Str × Store (Plane F)) Unit := do
  let np ← onInput (newPlane lib)
  addEntry np

/-- `delete_plane`. -/
def deletePlane : Act (List Str × Store (Plane F)) Unit := do
  let choice ← onInput (askIndex lib)
  deleteAt choice

/-- `update_plane`: `tp` is a copy, and is not put back. -/
def updatePlane : Act (List Str × Store (Plane F)) Unit := do
  let choice ← onInput (askIndex lib)
  let s ← getStore
  if choice > s.listLen ∨ choice ≤ 0 then pure ()
  else do
    let tp ← elementAt (cursorAt s.list choice)
    let manufacture ← onInput (askField readString tp.manufacture)
    let model ← onInput (askField readString tp.model)
    let passengers ← onInput (askField (readInteger lib) tp.passengers)
    let cost ← onInput (askField (readFloat lib) tp.cost)
    let mph ← onInput (askField (readFloat lib) tp.mph)
    let _tp : Plane F := { manufacture, model, passengers, cost, mph }
    pure ()

end Socket

/-! ## Trains -/

/-- The bytes still to be read of `fd`, and the C string `ocp` lines are read into. -/
structure Fd where
  bytes : Str
  ocp : Str

/-- `New_String(ss)`, of `n` times `NUL`. -/
def newString (n : Nat) : Act Fd Unit := fun fd => (.ok (), { fd with ocp := List.replicate (n + 1) 0 })

/-- The loop of `read_line` (`trains_c.c:57-72`), with `ml - count` rounds left. -/
def readLoop : Nat → Nat → Fd → Int × Fd
  | 0, count, fd => (count, fd)
  | n + 1, count, fd =>
    match fd.bytes with
    | [] => (-1, fd)
    | c :: bytes =>
      if c = 10 then (count, ⟨bytes, fd.ocp.set count 0⟩)
      else readLoop n (count + 1) ⟨bytes, fd.ocp.set count c⟩

/-- `read_line( fd, ocp, ml)` of `trains_c.c`. -/
def readLineC (ml : Nat) : Act Fd Int := fun fd => (.ok (readLoop ml 0 fd).1, (readLoop ml 0 fd).2)

/-- The bytes of a C string. -/
def cstr (s : Str) : Str := s.takeWhile (· ≠ 0)

/-- `Interfaces.C.Strings.Value( ocp )`. -/
def value : Act Fd Str := fun fd => (.ok (cstr fd.ocp), fd)

/-- `Value( ocp )(1..1)`. -/
def firstChar : Act Fd UInt8 := do
  let ts ← value
  checked ts.head?

/-- `read_line( fd, ocp, 31)` and its `Value`, or `none` for `if retval <= 0 then return`. -/
def askLine : Act Fd (Option Str) := do
  let retval ← readLineC 31
  if retval ≤ 0 then pure none
  else do
    let ts ← value
    pure (some ts)

section Fd

variable {F : Type} (lib : Lib F)

/-- `readint` of `trains_c.c`, over a buffer of its own. -/
def readint : Act Fd Int := fun fd =>
  let (count, fd') := readLoop 15 0 { fd with ocp := List.replicate 16 0 }
  (.ok (if count ≤ 0 then -1 else lib.atoi (cstr fd'.ocp)), { fd with bytes := fd'.bytes })

/-- The record `add_train` reads, or `none` for an early `return`. -/
def newTrain : Act Fd (Option (Train F)) := do
  newString 32
  let some name ← askLine | pure none
  let some model ← askLine | pure none
  let some t ← askLine | pure none
  let some speed ← askLine | pure none
  let speed ← checked (lib.floatValue speed)
  let some passengers ← askLine | pure none
  let passengers ← checked (lib.integerValue passengers)
  pure (some { name, model, t, speed, passengers })

/-- `add_train`. -/
def addTrain : Act (Fd × Store (Train F)) Unit := do
  match ← onInput (newTrain lib) with
  | none => pure ()
  | some nt => addEntry nt

/-- The first question of `delete_train`: whether it goes on. `ts` has ten characters, and an
assignment of another length raises. -/
def deleteQuestion : Act Fd Bool := do
  newString 1024
  let retval ← readLineC 2
  if retval ≤ 0 then pure false
  else do
    let ts ← value
    if ts.length = 10 then pure true else raise .constraintError

/-- `delete_train`. -/
def deleteTrain : Act (Fd × Store (Train F)) Unit := do
  if ← onInput deleteQuestion then do
    let choice ← onInput (readint lib)
    deleteAt choice
  else pure ()

/-- The first questions of `update_train`: the index, or `none` for an early `return`. -/
def updateChoice : Act Fd (Option Int) := do
  newString 32
  let retval ← readLineC 31
  if retval ≤ 0 then pure none
  else do
    let _ ← firstChar
    let choice ← readint lib
    pure (some choice)

/-- The questions for a new name: the changed record, or `none` for an early `return`. -/
def askName (tt : Train F) : Act Fd (Option (Train F)) := do
  let retval ← readLineC 2
  if retval ≤ 0 then pure none
  else do
    let c ← firstChar
    if c = 121 then do
      let _ ← readLineC 31
      let name ← value
      pure (some { tt with name })
    else pure (some tt)

/-- From `if choice > list_len or choice <= 0` of `update_train` to its end. -/
def replaceAt (choice : Int) : Act (Fd × Store (Train F)) Unit := do
  let s ← getStore
  if choice > s.listLen ∨ choice ≤ 0 then pure ()
  else do
    let ps := seek choice s.list 0 1
    let tt ← elementAt ps
    deleteEntry ps
    match ← onInput (askName tt) with
    | none => pure ()
    | some tt => appendEntry tt

/-- `update_train`. -/
def updateTrain : Act (Fd × Store (Train F)) Unit := do
  match ← onInput (updateChoice lib) with
  | none => pure ()
  | some choice => replaceAt choice

end Fd

/-! ## Requests -/

/-- What a client asks a store for. -/
inductive Op where
  | add
  | update
  | delete
  deriving DecidableEq

/-- A request, with what the socket delivers while it is served. -/
inductive Request where
  | vehicle (op : Op) (input : List Str)
  | plane (op : Op) (input : List Str)
  | train (op : Op) (bytes : Str)

/-- The globals of the three packages. -/
structure Site (F : Type) where
  vehicles : Store (Vehicle F)
  planes : Store (Plane F)
  trains : Store (Train F)

/-- The server before its first request. -/
def Site.boot {F : Type} : Site F := ⟨Store.empty, Store.empty, Store.empty⟩

section Serve

variable {F : Type} (lib : Lib F)

/-- The procedure of `vehicles.main` for a request. -/
def vehicleProc : Op → Act (List Str × Store (Vehicle F)) Unit
  | .add => addVehicle lib
  | .update => updateVehicle lib
  | .delete => deleteVehicle lib

/-- The procedure of `planes.main` for a request. -/
def planeProc : Op → Act (List Str × Store (Plane F)) Unit
  | .add => addPlane lib
  | .update => updatePlane lib
  | .delete => deletePlane lib

/-- The procedure of `trains.main` for a request. -/
def trainProc : Op → Act (Fd × Store (Train F)) Unit
  | .add => addTrain lib
  | .update => updateTrain lib
  | .delete => deleteTrain lib

/-- Serve a request. An exception ends the procedure, and the stores stay as it leaves them. -/
def serve : Request → Site F → Site F
  | .vehicle op input, s => { s with vehicles := (vehicleProc lib op (input, s.vehicles)).2.2 }
  | .plane op input, s => { s with planes := (planeProc lib op (input, s.planes)).2.2 }
  | .train op bytes, s => { s with trains := (trainProc lib op (⟨bytes, []⟩, s.trains)).2.2 }

/-- The states of a run, the first one included. -/
def states (s : Site F) : List Request → List (Site F)
  | [] => [s]
  | r :: rs => s :: states (serve lib r s) rs

end Serve

end Quals2017.Awsno
