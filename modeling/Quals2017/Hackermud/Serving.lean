import Mathlib.Logic.Function.Basic
import Quals2017.Hackermud.Proofs

/-!
# The server's connections (`hackermud/server/connection.cpp`, `main.cpp:13-144`,
`networkcommands.cpp:1046-1083,2550-2608`)

Bytes come in from any number of connections, a few at a time. What a connection has got goes into
its stream, and every command that has come whole is taken from it and run.

* A connection is known by when it came in. Connections that are gone are `none`.
* The handlers behind the table are `Handlers`. They do something to the world, and to connections
  nothing but `Disconnect`, `AcceptProof` and `Authenticate`, of which the last two are here.
* `challenge`, `received` and `log` are history: the seed a connection got, the bytes that were read
  on it, and the calls of `DoNetworkCommand` in order.
-/

namespace Quals2017.Hackermud

open Function (update)
open Quals2017.Lib.LittleEndian

/-! ## The bytes on the socket -/

/-- `SendCommand`: what goes over the socket. -/
def sendCommand (cmdNumber : UInt8) (data : List UInt8) : List UInt8 :=
  cmdNumber :: (leBytes 4 data.length ++ data)

/-- What `RecvCommand` comes to when there are five bytes: a command, or an exception of `Read` for
a length that wrapped around in the comparison. -/
inductive Packet
  | command (cmdNumber : UInt8) (data : List UInt8)
  | throws
  deriving DecidableEq

/-- `RecvCommand` on the bytes that can be read, and those that are left. -/
def recvCommand : List UInt8 → Option (Packet × List UInt8)
  | cmdNumber :: l0 :: l1 :: l2 :: l3 :: rest =>
    let cmdLength := leVal [l0, l1, l2, l3]
    if (cmdLength + 5) % 2 ^ 32 ≤ rest.length + 5 then
      if rest.length < cmdLength then some (.throws, rest)
      else some (.command cmdNumber (rest.take cmdLength), rest.drop cmdLength)
    else none
  | _ => none

/-! ## The connections -/

/-- `CServerConnection`. -/
structure ServerConnection extends Connection where
  /-- `m_pSocket` is not `NULL`. -/
  socket : Bool
  inactivityTimer : Nat
  /-- `m_memoryWritePos` of `m_rxStream`. -/
  written : Nat
  /-- The bytes of `m_rxStream` that can be read. -/
  pending : List UInt8

/-- The constructor and `SetProofSeed`. -/
def ServerConnection.new (proofSeed : Vector UInt32 4) : ServerConnection where
  connectionState := .waitProof
  proofSeed := proofSeed
  socket := true
  inactivityTimer := 0
  written := 0
  pending := []

/-- `Disconnect`. -/
def ServerConnection.disconnect (c : ServerConnection) : ServerConnection :=
  { c with connectionState := .disconnect, socket := false }

/-- `Authenticate`, with a player. -/
def ServerConnection.authenticate (c : ServerConnection) : ServerConnection :=
  { c with connectionState := .player }

/-- `MAX_MEMORY_CHUNKS * MEMORY_CHUNK_SIZE`: the bytes a stream holds, those that were read
included. -/
def streamSize : Nat := 1024 * 256

/-- A call of `DoNetworkCommand`: `result` is nothing where no handler ran. -/
structure Entry where
  connection : Nat
  cmdNumber : UInt8
  data : List UInt8
  result : Option Bool
  deriving DecidableEq

/-- The server, in a world of players, rooms and items. -/
structure Server (W : Type) where
  connections : Nat → Option ServerConnection
  next : Nat
  world : W
  /-- An exception has left `main`. -/
  terminated : Bool
  challenge : Nat → Vector UInt32 4
  received : Nat → List UInt8
  log : List Entry

/-- What a handler does, and what it returns. -/
structure Effect (W : Type) where
  world : W
  closes : Nat → Bool
  result : Bool

/-- The handlers. `auth` is `NWCAuth` up to `Authenticate`: where it is willing, the connections of
the same player exit; `welcome` is the rest of it. -/
structure Handlers (W : Type) where
  blake2b : Vector UInt32 6 → Vector UInt32 8
  auth : W → Nat → List UInt8 → W × Option (Nat → Bool)
  welcome : W → Nat → Effect W
  createPlayer : W → Nat → List UInt8 → Effect W
  command : UInt8 → W → Nat → List UInt8 → Effect W

namespace Server

variable {W : Type}

/-- Before the first connection. -/
def init (world : W) : Server W where
  connections _ := none
  next := 0
  world := world
  terminated := false
  challenge _ := Vector.replicate 4 0
  received _ := []
  log := []

def setConnection (s : Server W) (i : Nat) (c : ServerConnection) : Server W :=
  { s with connections := update s.connections i (some c) }

/-- `Disconnect` of some connections. -/
def close (s : Server W) (closes : Nat → Bool) : Server W :=
  { s with connections := fun i =>
      (s.connections i).map fun c => if closes i then c.disconnect else c }

/-- What a handler does. -/
def apply (s : Server W) (e : Effect W) : Server W :=
  close { s with world := e.world } e.closes

/-! ## The table -/

variable (h : Handlers W)

/-- `NWCAuth`. The exits are of connections in `CONNECTION_PLAYER`. -/
def nwcAuth (s : Server W) (i : Nat) (c : ServerConnection) (data : List UInt8) : Server W × Bool :=
  if c.connectionState ≠ .waitAuth then (s, false)
  else
    match h.auth s.world i data with
    | (world, none) => ({ s with world := world }, false)
    | (world, some exits) =>
      let s : Server W := { s with world := world }
      let s := s.close fun j =>
        exits j && (s.connections j).any fun c => c.connectionState = .player
      let s := s.setConnection i c.authenticate
      let welcome := h.welcome s.world i
      (s.apply welcome, welcome.result)

/-- `NWCCreatePlayer`. -/
def nwcCreatePlayer (s : Server W) (i : Nat) (c : ServerConnection) (data : List UInt8) :
    Server W × Bool :=
  if c.connectionState ≠ .waitAuth then (s, false)
  else
    let e := h.createPlayer s.world i data
    (s.apply e, e.result)

/-- `NWCProofData`. -/
def nwcProof (s : Server W) (i : Nat) (c : ServerConnection) (data : List UInt8) :
    Server W × Bool :=
  match nwcProofData h.blake2b (some c.toConnection) data with
  | (result, some conn) => (s.setConnection i { c with toConnection := conn }, result)
  | (result, none) => (s, result)

/-- `g_cmdTable`. -/
def cmdTable (s : Server W) (i : Nat) (c : ServerConnection) (cmdNumber : UInt8)
    (data : List UInt8) : Server W × Bool :=
  if cmdNumber = 0 then s.nwcAuth h i c data
  else if cmdNumber = 14 then s.nwcCreatePlayer h i c data
  else if cmdNumber = 15 then s.nwcProof h i c data
  else
    let e := h.command cmdNumber s.world i data
    (s.apply e, e.result)

/-- The checks of `DoNetworkCommand`. -/
def accepts (c : ServerConnection) (cmdNumber : UInt8) : Bool :=
  cmdNumber < 16 &&
    match c.connectionState with
    | .waitProof => cmdNumber = 15
    | .waitAuth => cmdNumber = 0 || cmdNumber = 14
    | .player => true
    | .disconnect => false

/-- `DoNetworkCommand`, and the line in the history. -/
def doNetworkCommand (s : Server W) (i : Nat) (c : ServerConnection) (cmdNumber : UInt8)
    (data : List UInt8) : Server W × Bool :=
  if accepts c cmdNumber then
    let (s, result) := s.cmdTable h i c cmdNumber data
    ({ s with log := s.log ++ [⟨i, cmdNumber, data, some result⟩] }, result)
  else ({ s with log := s.log ++ [⟨i, cmdNumber, data, none⟩] }, false)

/-! ## The main loop -/

theorem recvCommand_length {pending rest : List UInt8} {p : Packet}
    (h : recvCommand pending = some (p, rest)) : rest.length < pending.length := by
  unfold recvCommand at h
  split at h
  · dsimp only at h
    split_ifs at h <;> cases h
    · simp only [List.length_cons]
      omega
    · simp only [List.length_cons, List.length_drop]
      omega
  · cases h

/-- The loop of `HandlePlayerData`. The stream is the connection's own, and lies in `pending` while
the loop runs. -/
def handleCommands (s : Server W) (i : Nat) (pending : List UInt8) : Server W :=
  match s.connections i with
  | none => s
  | some c =>
    if !c.socket then s.setConnection i { c with pending := pending }
    else
      match _hrecv : recvCommand pending with
      | none => s.setConnection i { c with pending := pending }
      | some (.throws, _) => { s with terminated := true }
      | some (.command cmdNumber data, rest) =>
        let (s, result) := s.doNetworkCommand h i c cmdNumber data
        handleCommands (if result then s else s.close (· == i)) i rest
termination_by pending.length
decreasing_by exact recvCommand_length _hrecv

/-- Bytes that were read, in the history. -/
def receive (s : Server W) (i : Nat) (dataChunk : List UInt8) : Server W :=
  { s with received := update s.received i (s.received i ++ dataChunk) }

/-- `HandlePlayerData`: nothing is what `RecvData` throws for. -/
def handlePlayerData (s : Server W) (i : Nat) (c : ServerConnection)
    (dataChunk : Option (List UInt8)) : Server W :=
  match dataChunk with
  | none => s.close (· == i)
  | some dataChunk =>
    let s := s.receive i dataChunk
    if streamSize < c.written + dataChunk.length then s.close (· == i)
    else
      let c := { c with written := c.written + dataChunk.length, inactivityTimer := 0 }
      (s.setConnection i c).handleCommands h i (c.pending ++ dataChunk)

/-- `AcceptNewConnection`, and whether the challenge could be sent. -/
def acceptNewConnection (s : Server W) (proofSeed : Vector UInt32 4) (sent : Bool) : Server W :=
  let c := ServerConnection.new proofSeed
  { s.setConnection s.next (if sent then c else c.disconnect) with
    next := s.next + 1
    challenge := update s.challenge s.next proofSeed }

/-- `MAX_INACTIVITY_TICK_COUNT`. -/
def maxInactivityTickCount : Nat := 50 * 50

/-- `HandleDisconnects` of a connection. -/
def handleDisconnect (c : ServerConnection) : Option ServerConnection :=
  let c := { c with inactivityTimer := c.inactivityTimer + 1 }
  let c := if maxInactivityTickCount < c.inactivityTimer then c.disconnect else c
  if c.connectionState = .disconnect then none else some c

/-- What happens next. An `update` is `UpdateEvent` or the farewells in `HandleDisconnects`. -/
inductive Event (W : Type)
  | accept (proofSeed : Vector UInt32 4) (sent : Bool)
  | receive (i : Nat) (dataChunk : Option (List UInt8))
  | update (world : W) (closes : Nat → Bool)
  | disconnects

/-- A part of a round of `main`. -/
def step (s : Server W) (e : Event W) : Server W :=
  if s.terminated then s
  else
    match e with
    | .accept proofSeed sent => s.acceptNewConnection proofSeed sent
    | .receive i dataChunk =>
      match s.connections i with
      | some c =>
        if c.connectionState = .disconnect then s else s.handlePlayerData h i c dataChunk
      | none => s
    | .update world closes => close { s with world := world } closes
    | .disconnects => { s with connections := fun i => (s.connections i).bind handleDisconnect }

/-- A run of the server. -/
def run (s : Server W) (es : List (Event W)) : Server W := es.foldl (step h) s

end Server

end Quals2017.Hackermud
