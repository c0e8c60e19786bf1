import Quals2017.Empanada.EmpmaRuns

/-!
# The message protocol (`empanada/proto.h`, `empanada/service.cpp`)

The service reads messages of up to three fragments into nodes of the allocator (`pMessage`, 48
bytes of the 32-bit build), and the first byte of a message is a command on the list of stored
messages. A step of `serve` is one round of the main loop: the header of a message, one of its
fragments, or its command. The call of `empDcdPmsg` by itself is its last, so it is the next step.

* The replies are left out (`empSndmsg`, `empSndLmsg`, `empGethsum`): they only read.
* A function pointer that is neither hash, a `NULL` that is written to and an `exit` end the run.
* `Host` has what the program does not say: the word `pHead` that `alloc` does not set, the
  addresses of the two hash functions, the word behind a `vector`, the bytes behind a string. A loop
  over `next` takes at most `fuel` nodes; one that does not end is no step.
-/

namespace Quals2017.Empanada

open Quals2017.Lib Quals2017.Lib.ByteMem Function

abbrev Byte := BitVec 8

/-- What the program does not say. -/
structure Host where
  junk : Heap → Addr
  srvHsum : Addr
  cliHsum : Addr
  hashes_ne : cliHsum ≠ srvHsum
  beyond : Heap → Addr
  overread : Heap → Nat → Byte
  fuel : Nat

/-! ## The fields of a `pMessage` -/

def typeOf (m : ByteMem) (p : Addr) : Byte := m p

def idxOf (m : ByteMem) (p : Addr) : Byte := m (p + 1)

def lenOf (m : ByteMem) (p : Addr) : Byte := m (p + 2)

def hashFunc (m : ByteMem) (p : Addr) : Addr := m.load (p + 36)

def prevOf (m : ByteMem) (p : Addr) : Addr := m.load (p + 40)

def nextOf (m : ByteMem) (p : Addr) : Addr := m.load (p + 44)

/-- `MESSAGE_LIMIT`. -/
def messageLimit : Nat := 128

def empGetMtype (byte : Byte) : Byte := if byte &&& 0b10000000 = 0 then 0 else 1

def empGetMsize (byte : Byte) : Byte := byte &&& 0b00011111

def empGetMidx (byte : Byte) : Byte := (byte &&& 0b01100000) >>> 5

/-! ## The hash functions -/

def empSrvHsum (m : ByteMem) (buffer : Addr) (size : Byte) : Addr :=
  let s := (List.range size.toNat).foldl (fun s n =>
    let s1 := (s.1 + (m (buffer + BitVec.ofNat 32 n)).signExtend 32) % 65521
    (s1, (s.2 + s1) % 65521)) ((1 : Addr), (0 : Addr))
  (s.2 ^^^ s.2) - 1

/-- The loop of `empCliHsum` ends where it starts. -/
def empCliHsum (buffer : Addr) : Addr :=
  let s1 : Addr := 1
  let s2 : Addr := 0
  ((s2 <<< 16) ||| s1) ^^^ buffer

/-- `(*p->HashFunc)(p->data,p->size)`. -/
def callHash (host : Host) (m : ByteMem) (p : Addr) : Option Addr :=
  if hashFunc m p = host.srvHsum then some (empSrvHsum m (p + 3) (lenOf m p))
  else if hashFunc m p = host.cliHsum then some (empCliHsum (p + 3))
  else none

/-! ## Strings -/

/-- The bytes up to the first `NUL`, at most `n`. -/
def text (m : ByteMem) (a : Addr) : Nat → List Byte
  | 0 => []
  | n + 1 => if m a = 0 then [] else m a :: text m (a + 1) n

def strlen (m : ByteMem) (a : Addr) : Nat := (text m a (2 ^ 32)).length

def strncat (m : ByteMem) (dst src : Addr) (n : Nat) : ByteMem :=
  m.write (dst + BitVec.ofNat 32 (strlen m dst)) (text m src n ++ [0])

/-! ## The server -/

/-- Where the main loop is. -/
inductive Mode
  | idle
  | fragment (prev : Addr) (header : Byte) (num : Nat)
  | command

/-- The globals, the input, and the pointers that were given back while they were not allocated. -/
structure Server where
  heap : Heap
  curm : Addr
  msgCnt : BitVec 16
  mlist : List Addr
  stdin : List Byte
  mode : Mode
  refreed : List Addr

/-- A pointer to a page that is in use. -/
def Allocated (h : Heap) (ptr : Addr) : Prop :=
  ptr - 12 ∈ h.pageTable ∧ bUsed h.mem (ptr - 12) = true

instance (h : Heap) (ptr : Addr) : Decidable (Allocated h ptr) :=
  inferInstanceAs (Decidable (_ ∧ _))

namespace Server

/-- The memory. -/
def mem (s : Server) : ByteMem := s.heap.mem

def setMem (s : Server) (m : ByteMem) : Server := { s with heap := { s.heap with mem := m } }

/-- `g_empMem.free`. -/
def giveBack (s : Server) (ptr : Addr) : Server :=
  { s with
    heap := free s.heap ptr
    refreed := if ptr = 0 ∨ Allocated s.heap ptr then s.refreed else s.refreed ++ [ptr] }

end Server

/-- `getc` as a byte: `EOF` is `0xFF`. -/
def getc : List Byte → Byte × List Byte
  | [] => (0xFF, [])
  | c :: rest => (c, rest)

/-! ## Reading a message -/

/-- The new node, and the link to it. -/
def linkNode (m : ByteMem) (msg prev : Addr) : ByteMem :=
  let m := m.fill msg 48 0
  if prev ≠ 0 then (m.store (msg + 40) prev).store (prev + 44) msg else m

/-- The fields of the new node. -/
def setNode (host : Host) (m : ByteMem) (msg : Addr) (type size index : Byte) (data : List Byte) :
    ByteMem :=
  let m := m.store (msg + 36) (if type ≠ 0 then host.cliHsum else host.srvHsum)
  let m : ByteMem := update (update (update m msg type) (msg + 2) size) (msg + 1) index
  m.write (msg + 3) data

/-- `empDcdPmsg`, up to its call of itself. -/
def empDcdPmsg (host : Host) (r : Region) (s : Server) (prev : Addr) (header : Byte) (num : Nat) :
    Option Server :=
  let type := empGetMtype header
  let size := empGetMsize header
  let index := empGetMidx header
  let count := min size.toNat 31
  let data := s.stdin.take count ++ List.replicate (size.toNat - (s.stdin.take count).length) 0
  let stdin := s.stdin.drop count
  let q := alloc r s.heap 48 (host.junk s.heap)
  let msg := q.2
  if msg = 0 then none
  else
    let m := setNode host (linkNode q.1.mem msg prev) msg type size index data
    let next := getc stdin
    let more := index ≠ 0 ∧ num + 1 < 3
    some { s with
      heap := { q.1 with mem := m }
      curm := if num = 0 then msg else s.curm
      msgCnt := s.msgCnt + 1
      stdin := if more then next.2 else stdin
      mode := if more then .fragment msg next.1 (num + 1) else .command }

/-! ## The commands -/

/-- `empRmall`. -/
def empRmall (s : Server) : Server :=
  let s := s.mlist.foldl (fun s p =>
    let s := s.giveBack p
    s.setMem (s.mem.fill p 48 0)) s
  { s with mlist := [] }

/-- The loop of `empRmmsg`, which gives back the node behind. -/
def freeBehind : Nat → Server → Addr → Option Server
  | 0, _, _ => none
  | n + 1, s, p =>
    if p = 0 then some s
    else
      let next := nextOf s.mem p
      freeBehind n (s.giveBack next) next

/-- `empRmmsg`. -/
def empRmmsg (host : Host) (s : Server) (idx : Byte) : Option (Server × Bool) :=
  if messageLimit < idx.toNat ∨ s.mlist.length < idx.toNat then some (s, false)
  else
    let p := s.mlist.getD idx.toNat (host.beyond s.heap)
    (freeBehind host.fuel s p).map fun s => ({ s with mlist := s.mlist.eraseIdx idx.toNat }, true)

/-- The inner loop of `empClrInvdmsg`. -/
def clearFrom (host : Host) : Nat → Server → Addr → Nat → Option (Server × Nat)
  | 0, _, _, _ => none
  | n + 1, s, p, count =>
    if p = 0 then some (s, count)
    else
      let next := nextOf s.mem p
      match callHash host s.mem p with
      | none => none
      | some hash =>
        if hash = 0xffffffff then clearFrom host n (s.giveBack p) next (count + 1)
        else clearFrom host n s next count

/-- `empClrInvdmsg`. -/
def empClrInvdmsg (host : Host) (s : Server) : Option (Server × Nat) :=
  s.mlist.foldlM (fun q p => clearFrom host host.fuel q.1 p q.2) (s, 0)

/-- The nodes from one on. -/
def nodesFrom (m : ByteMem) : Nat → Addr → Option (List Addr)
  | 0, _ => none
  | n + 1, p => if p = 0 then some [] else (nodesFrom m n (nextOf m p)).map (p :: ·)

/-- `p->data+1` in the node with the command, `p->data` in the others. -/
def payload (m : ByteMem) (p : Addr) : Addr := if idxOf m p = 0 then p + 4 else p + 3

/-- The `len` of `empGetmsg`. -/
def totalLen (m : ByteMem) (nodes : List Addr) : Nat := (nodes.map fun p => (lenOf m p).toNat).sum

/-- `empGetmsg`, where there is a message. -/
def getNodes (host : Host) (r : Region) (s : Server) (nodes : List Addr) : Option Server :=
  let len := totalLen s.mem nodes
  let str := nodes.flatMap fun p => text s.mem (payload s.mem p) (2 ^ 32)
  let q := alloc r s.heap (BitVec.ofNat 32 (len + 1)) (host.junk s.heap)
  if q.2 = 0 then none
  else
    let behind := (List.range (len + 1)).map (host.overread s.heap)
    some { s with heap := { q.1 with mem := q.1.mem.write q.2 ((str ++ 0 :: behind).take (len + 1)) } }

/-- `empGetmsg`. -/
def empGetmsg (host : Host) (r : Region) (s : Server) (idx : Byte) : Option Server :=
  if s.mlist.length = 0 then some s
  else if messageLimit < idx.toNat ∨ s.mlist.length - 1 < idx.toNat then some s
  else (nodesFrom s.mem host.fuel (s.mlist.getD idx.toNat 0)).bind (getNodes host r s)

/-- The `total` of `empGetall`. -/
def totalAll (m : ByteMem) (nodes : List Addr) : Nat :=
  (nodes.map fun p => (lenOf m p).toNat + 1).sum

/-- The text of a node is appended. `pTmp->size-1` is an `int` that becomes a `size_t`. -/
def catNode (m : ByteMem) (all p : Addr) : ByteMem :=
  let size := (lenOf m p).setWidth 32
  if idxOf m p = 0 then strncat m all (p + 4) (size - 1).toNat else strncat m all (p + 3) size.toNat

/-- The inner loop of `empGetall`. -/
def catFrom (all : Addr) : Nat → ByteMem → Addr → Option ByteMem
  | 0, _, _ => none
  | n + 1, m, p =>
    if p = 0 then some m
    else
      let m' := catNode m all p
      catFrom all n m' (nextOf m' p)

/-- All the nodes, message after message. -/
def allNodes (m : ByteMem) (fuel : Nat) (mlist : List Addr) : Option (List Addr) :=
  (mlist.mapM (nodesFrom m fuel)).map List.flatten

/-- `empGetall`. -/
def empGetall (host : Host) (r : Region) (s : Server) : Option Server :=
  (allNodes s.mem host.fuel s.mlist).bind fun nodes =>
    let q := alloc r s.heap (BitVec.ofNat 32 (totalAll s.mem nodes + 1)) (host.junk s.heap)
    if q.2 = 0 then none
    else
      (s.mlist.foldlM (catFrom q.2 host.fuel) q.1.mem).map fun m =>
        { s with heap := { q.1 with mem := m } }

/-- The loop at the end of `empDcdPmsgCmd`. -/
def freeFrom : Nat → Server → Addr → Option Server
  | 0, _, _ => none
  | n + 1, s, p =>
    if p = 0 then some s
    else
      let next := nextOf s.mem p
      freeFrom n (s.giveBack p) next

/-- The `switch` of `empDcdPmsgCmd`. -/
def dispatch (host : Host) (r : Region) (s : Server) (p : Addr) (cmd arg : Byte) : Option Server :=
  if cmd = 0x00 then some (empRmall s)
  else if cmd = 0x10 then
    if s.mlist.length = messageLimit then some s else some { s with mlist := s.mlist ++ [p] }
  else if cmd = 0x20 then some s
  else if cmd = 0x30 then empGetmsg host r s arg
  else if cmd = 0x40 then some s
  else if cmd = 0x50 then (empRmmsg host s arg).map Prod.fst
  else if cmd = 0x60 then empGetall host r s
  else if cmd = 0xFE then (empClrInvdmsg host s).map Prod.fst
  else none

/-- `empDcdPmsgCmd`. -/
def empDcdPmsgCmd (host : Host) (r : Region) (s : Server) : Option Server :=
  let p := s.curm
  if idxOf s.mem p = 0 ∨ idxOf s.mem p = 1 then
    let cmd := s.mem (p + 3)
    (dispatch host r s p cmd (s.mem (p + 4))).bind fun s =>
      if cmd ≠ 0x10 then freeFrom host.fuel s p else some s
  else some s

/-- A step of the main loop. -/
def serve (host : Host) (r : Region) (s : Server) : Option Server :=
  match s.mode with
  | .idle =>
    if messageLimit < s.msgCnt.toNat then none
    else
      let byte := getc s.stdin
      if empGetMtype byte.1 ≠ 0 then
        some { s with stdin := byte.2, mode := .fragment 0 byte.1 0 }
      else some { s with stdin := byte.2 }
  | .fragment prev header num => empDcdPmsg host r s prev header num
  | .command => (empDcdPmsgCmd host r s).map fun s => { s with mode := .idle }

/-- The service before its first round. -/
def Server.init (r : Region) (mem : ByteMem) (stdin : List Byte) : Server :=
  ⟨Heap.init r mem, 0, 0, [], stdin, .idle, []⟩

/-- The states of the runs whose steps all start in a state that satisfies `P`. -/
inductive Serves (host : Host) (r : Region) (P : Server → Prop) : Server → Prop
  | init {mem : ByteMem} {stdin : List Byte} (hmem : ∀ a : Addr, r.start.toNat ≤ a.toNat →
      a.toNat < r.finish → mem a = 0) : Serves host r P (Server.init r mem stdin)
  | step {s s' : Server} (hs : Serves host r P s) (hP : P s) (hstep : serve host r s = some s') :
      Serves host r P s'

/-! ## The discipline -/

/-- A node of the message that starts at `p`. -/
inductive Node (m : ByteMem) (p : Addr) : Addr → Prop
  | head (hp : p ≠ 0) : Node m p p
  | next {n : Addr} (hn : Node m p n) (hne : nextOf m n ≠ 0) : Node m p (nextOf m n)

/-- Every node of a stored message is allocated, and nothing was given back twice. -/
structure Disciplined (s : Server) : Prop where
  allocated : ∀ p ∈ s.mlist, ∀ n, Node s.mem p n → Allocated s.heap n
  once : s.refreed = []

/-- The nodes of the messages that a step deletes are not allocated behind it. -/
def Freed (s s' : Server) : Prop :=
  ∀ p ∈ s.mlist, p ∉ s'.mlist → ∀ n, Node s.mem p n → ¬Allocated s'.heap n

/-! ## The condition -/

/-- A request that fits. -/
def Request (r : Region) (s : Server) (size : Nat) : Prop :=
  Fits r ⟨s.heap, []⟩ (.alloc (BitVec.ofNat 32 size) 0)

/-- What a command has to meet. -/
def Meets (host : Host) (r : Region) (s : Server) (cmd arg : Byte) : Prop :=
  if cmd = 0x00 then ∀ p ∈ s.mlist, nextOf s.mem p = 0
  else if cmd = 0x30 then arg.toNat ≤ messageLimit → arg.toNat < s.mlist.length →
    ∀ nodes, nodesFrom s.mem host.fuel (s.mlist.getD arg.toNat 0) = some nodes →
      Request r s (totalLen s.mem nodes + 1)
  else if cmd = 0x50 then messageLimit < arg.toNat ∨ s.mlist.length < arg.toNat
  else if cmd = 0x60 then ∀ nodes, allNodes s.mem host.fuel s.mlist = some nodes →
      Request r s (totalAll s.mem nodes + 1)
  else if cmd = 0xFE then ∀ p ∈ s.mlist, ∀ n, Node s.mem p n → typeOf s.mem n ≠ 0
  else True

/-- Every request fits, no stored message is deleted by itself, all are deleted only while none has
a second fragment, and the invalid ones are cleared only while there is none. -/
def Careful (host : Host) (r : Region) (s : Server) : Prop :=
  match s.mode with
  | .idle => True
  | .fragment _ _ _ => Request r s 48
  | .command => idxOf s.mem s.curm = 0 ∨ idxOf s.mem s.curm = 1 →
    Meets host r s (s.mem (s.curm + 3)) (s.mem (s.curm + 4))

end Quals2017.Empanada
