import Mathlib.Data.Fintype.Basic
import Quals2017.Lib.Cbc
import Quals2017.Lib.Chunks
import Quals2017.Lib.LittleEndian

/-!
# The encrypted session (`liberty/server/liberty-server.c:51-80,145-363`,
`liberty/server/payloads/64/aes/payload-aes.c:22-131`, `liberty/client/liberty-client.c:95-155`)

Server and client hold two keys and two chaining blocks each. A message is its length, the next key
of its direction, its bytes and whatever pads it to whole blocks, all under the current key. The
client's `send` and `recv` are the two hooks.

* The transport is a queue of bytes in either direction. A loop of `recv` gets as many bytes at a
  time as `cut` says; a read of four bytes gets them at once.
* A step is `none` where its party waits for ever or gives up. `junk` is what lies behind the bytes
  of a message.
* The block cipher is a parameter: `Cipher`.

Results: `ratchet_agreement_iff`, `ratchet_loses`.
-/

namespace Quals2017.Liberty.Ratchet

open Quals2017.Lib Quals2017.Lib.Chunks Quals2017.Lib.LittleEndian

abbrev Key := Vector UInt8 32
abbrev Block := Vector UInt8 16

/-- AES under a key, in both directions. -/
structure Cipher where
  enc : Key → Block → Block
  dec : Key → Block → Block
  dec_enc : ∀ k b, dec k (enc k b) = b

/-- `pxor`. -/
def pxor (a b : Block) : Block := Vector.zipWith (· ^^^ ·) a b

theorem pxor_pxor (a b : Block) : pxor (pxor a b) b = a := by
  refine Vector.ext fun i hi => ?_
  rw [pxor, pxor, Vector.getElem_zipWith, Vector.getElem_zipWith, UInt8.xor_assoc, UInt8.xor_self,
    UInt8.xor_zero]

/-- The chaining mode of the assembly. -/
def Cipher.chain (c : Cipher) (k : Key) : Cbc.Chain Block where
  enc := c.enc k
  dec := c.dec k
  mix := pxor
  dec_enc := c.dec_enc k
  mix_mix := pxor_pxor

/-- `iEnc256_CBC` with `num_blocks`: the bytes, and the IV it leaves. -/
def Cipher.iEnc256CBC (c : Cipher) (k : Key) (iv : Block) (numBlocks : Nat) (data : List UInt8) :
    List UInt8 × Block :=
  let out := (c.chain k).encrypt iv (chunks 0 16 numBlocks data)
  (flat out.1, out.2)

/-- `iDec256_CBC`. -/
def Cipher.iDec256CBC (c : Cipher) (k : Key) (iv : Block) (numBlocks : Nat) (data : List UInt8) :
    List UInt8 × Block :=
  let out := (c.chain k).decrypt iv (chunks 0 16 numBlocks data)
  (flat out.1, out.2)

theorem Cipher.iEnc256CBC_length (c : Cipher) (k : Key) (iv : Block) (n : Nat) (data : List UInt8) :
    (c.iEnc256CBC k iv n data).1.length = n * 16 := by
  rw [Cipher.iEnc256CBC, flat_length, Cbc.Chain.encrypt_length, chunks_length]

/-- **The two assembly routines are inverse**, and leave the same IV. -/
theorem Cipher.iDec256CBC_iEnc256CBC (c : Cipher) (k : Key) (iv : Block) {n : Nat}
    {data : List UInt8} (h : data.length = n * 16) :
    c.iDec256CBC k iv n (c.iEnc256CBC k iv n data).1 = (data, (c.iEnc256CBC k iv n data).2) := by
  have hn : ((c.chain k).encrypt iv (chunks 0 16 n data)).1.length = n := by
    rw [Cbc.Chain.encrypt_length, chunks_length]
  have hcut : chunks 0 16 n (flat ((c.chain k).encrypt iv (chunks 0 16 n data)).1)
      = ((c.chain k).encrypt iv (chunks 0 16 n data)).1 := by
    have := chunks_flat (0 : UInt8) ((c.chain k).encrypt iv (chunks 0 16 n data)).1 []
    rwa [hn, List.append_nil] at this
  rw [Cipher.iDec256CBC, Cipher.iEnc256CBC]
  simp only [hcut, Cbc.Chain.decrypt_encrypt, flat_chunks (0 : UInt8) h]

/-! ## The parties -/

/-- The four globals of either side. -/
structure Keys where
  encKey : Key
  decKey : Key
  encIV : Block
  decIV : Block
  deriving DecidableEq

/-- Both sides, and the bytes under way. -/
structure Session where
  server : Keys
  client : Keys
  toClient : List UInt8
  toServer : List UInt8
  deriving DecidableEq

/-- `MAX_PAYLOAD_SIZE`. -/
def maxPayloadSize : Nat := 4096

/-- `MAX_BUFFER_SIZE` of the client. -/
def maxBufferSize : Nat := 8192

/-- A length made a multiple of 16. -/
def padded (len : Nat) : Nat := if len &&& 0xf ≠ 0 then ((len >>> 4) + 1) <<< 4 else len

/-- A queue is read: `none` if it is too short. -/
def readBytes (n : Nat) (queue : List UInt8) : Option (List UInt8 × List UInt8) :=
  if n ≤ queue.length then some (queue.take n, queue.drop n) else none

/-- A loop of `recv` or `read` for `n` bytes. The fuel is `n`: a call brings a byte at least. -/
def readLoop (cut : Nat → Nat) : Nat → Nat → List UInt8 → Option (List UInt8 × List UInt8)
  | 0, _, queue => some ([], queue)
  | fuel + 1, n, queue =>
    if n = 0 then some ([], queue)
    else if queue = [] then none
    else
      let got := min (max 1 (cut n)) (min n queue.length)
      (readLoop cut fuel (n - got) (queue.drop got)).map fun r => (queue.take got ++ r.1, r.2)

/-- What both senders put into `TempBuffer`. -/
def tempBuffer (newKey : Key) (data : List UInt8) (junk : Nat → UInt8) : List UInt8 :=
  leBytes 2 data.length ++ (newKey.toList ++
    (data ++ (List.range (padded (data.length + 2 + 32) - (data.length + 2 + 32))).map junk))

/-- A message as both senders make it: the header, the bytes, and the keys left. -/
def pack (c : Cipher) (p : Keys) (newKey : Key) (data : List UInt8) (junk : Nat → UInt8) :
    List UInt8 × Keys :=
  let len := padded (data.length + 2 + 32)
  let out := c.iEnc256CBC p.encKey p.encIV (len >>> 4) (tempBuffer newKey data junk)
  (leBytes 4 len ++ out.1, { p with encKey := newKey, encIV := out.2 })

/-- What both receivers do with a body: `OutBuffer`, and the keys left. -/
def unpack (c : Cipher) (p : Keys) (body : List UInt8) : List UInt8 × Keys :=
  let out := c.iDec256CBC p.decKey p.decIV (body.length >>> 4) body
  (out.1, { p with decKey := window 0 32 (out.1.drop 2), decIV := out.2 })

/-- The length in `OutBuffer`, and the bytes of the message. -/
def message (outBuffer : List UInt8) : List UInt8 :=
  (outBuffer.drop 34).take (leVal (outBuffer.take 2))

/-- The first half of `EncryptSendAndCheckBuffer`. -/
def encryptSend (c : Cipher) (s : Session) (newKey : Key) (payload : List UInt8)
    (junk : Nat → UInt8) : Option Session :=
  if maxPayloadSize < padded (payload.length + 2 + 32) then none
  else
    let (bytes, p) := pack c s.server newKey payload junk
    some { s with server := p, toClient := s.toClient ++ bytes }

/-- `Encrypt_Recv` for `len` bytes: what it stores at `Buffer`. A length of 4 is a size header. -/
def encryptRecv (c : Cipher) (s : Session) (cut : Nat → Nat) (len : Nat) :
    Option (List UInt8 × Session) :=
  if len = 4 then (readBytes 4 s.toClient).map fun r => (r.1, { s with toClient := r.2 })
  else if maxPayloadSize < len then none
  else
    (readLoop cut len len s.toClient).bind fun r =>
      if len &&& 0xf ≠ 0 then none
      else
        let (out, p) := unpack c s.client r.1
        some (message out, { s with client := p, toClient := r.2 })

/-- The client's loop up to `execdata`: the code it got. -/
def clientRecv (c : Cipher) (s : Session) (cut : Nat → Nat) : Option (List UInt8 × Session) :=
  (encryptRecv c s cut 4).bind fun r =>
    let bufsize := leVal r.1
    if maxBufferSize < bufsize then none
    else if bufsize = 0 then some ([], r.2)
    else encryptRecv c r.2 cut bufsize

/-- `Encrypt_Send` for a buffer. A length of 4 is taken for a size header. -/
def encryptSendHook (c : Cipher) (s : Session) (newKey : Key) (buffer : List UInt8)
    (junk : Nat → UInt8) : Option Session :=
  if buffer.length = 4 then some s
  else if maxPayloadSize < padded (buffer.length + 2 + 32) then none
  else
    let (bytes, p) := pack c s.client newKey buffer junk
    some { s with client := p, toServer := s.toServer ++ bytes }

/-- The rest of the client's loop: the length of the response and the response. -/
def clientSend (c : Cipher) (s : Session) (newKey : Key) (response : List UInt8)
    (junk : Nat → UInt8) : Option Session :=
  (encryptSendHook c s newKey (leBytes 4 response.length) junk).bind fun s =>
    encryptSendHook c s newKey response junk

/-- `ReadResponse`. -/
def readResponse (s : Session) (cut : Nat → Nat) (maxLen : Nat) : Option (List UInt8 × Session) :=
  (readBytes 4 s.toServer).bind fun r =>
    let len := leVal r.1
    if 2 ^ 31 ≤ len ∨ maxLen < len then none
    else (readLoop cut len len r.2).map fun q => (q.1, { s with toServer := q.2 })

/-- `ReadAESResponse`. -/
def readAESResponse (c : Cipher) (s : Session) (cut : Nat → Nat) (maxLen : Nat) :
    Option (List UInt8 × Session) :=
  (readResponse s cut maxLen).bind fun r =>
    if r.1.length = 0 then none
    else if r.1.length &&& 0x0F ≠ 0 ∨ maxPayloadSize < r.1.length then none
    else
      let (out, p) := unpack c r.2.server r.1
      if maxPayloadSize < leVal (out.take 2) then none
      else some (message out, { r.2 with server := p })

/-! ## Sessions -/

/-- The random bytes of a message, what lies behind it, and how it is received. -/
structure Chance where
  newKey : Key
  junk : Nat → UInt8
  cut : Nat → Nat

/-- A payload, what it leaves in `response` when the client runs it, and the chance of both ways. -/
structure Exchange where
  payload : List UInt8
  execdata : List UInt8 → List UInt8
  there : Chance
  back : Chance

/-- From the server to the client. -/
def sendPayload (c : Cipher) (s : Session) (payload : List UInt8) (x : Chance) :
    Option (List UInt8 × Session) :=
  (encryptSend c s x.newKey payload x.junk).bind fun s => clientRecv c s x.cut

/-- From the client to the server. -/
def sendResponse (c : Cipher) (s : Session) (response : List UInt8) (x : Chance) (maxLen : Nat) :
    Option (List UInt8 × Session) :=
  (clientSend c s x.newKey response x.junk).bind fun s => readAESResponse c s x.cut maxLen

/-- The key fields of the AES payload, filled with random bytes. -/
structure Fields where
  encKey : Key
  decKey : Key
  encIV : Block
  decIV : Block

/-- The size of `payload-aes.bin`. -/
def aesPayloadLen : Nat := 3728

/-- `"!AES!"`. -/
def aesReply : List UInt8 := [0x21, 0x41, 0x45, 0x53, 0x21]

/-- `InitAES`: the server keeps the fields swapped, the client answers through its new hooks. -/
def initAES (c : Cipher) (f : Fields) (x : Chance) : Option Session :=
  let s : Session :=
    { server := ⟨f.decKey, f.encKey, f.decIV, f.encIV⟩
      client := ⟨f.encKey, f.decKey, f.encIV, f.decIV⟩
      toClient := []
      toServer := [] }
  (sendResponse c s aesReply x aesPayloadLen).bind fun r =>
    if r.1 = aesReply then some r.2 else none

/-- What a run shows: the states before its exchanges and after the last, and what was delivered. -/
structure Log where
  states : List Session
  payloads : List (List UInt8)
  responses : List (List UInt8)

/-- Exchanges in order, up to the first that does not end. -/
def run (c : Cipher) : Session → List Exchange → Log
  | s, [] => ⟨[s], [], []⟩
  | s, e :: es =>
    match sendPayload c s e.payload e.there with
    | none => ⟨[s], [], []⟩
    | some (p, s₁) =>
      match sendResponse c s₁ (e.execdata p) e.back maxPayloadSize with
      | none => ⟨[s], [p], []⟩
      | some (r, s₂) =>
        let log := run c s₂ es
        ⟨s :: log.states, p :: log.payloads, r :: log.responses⟩

/-- The keys of the two directions agree. -/
def KeysAgree (s : Session) : Prop :=
  s.server.encKey = s.client.decKey ∧ s.client.encKey = s.server.decKey

instance (s : Session) : Decidable (KeysAgree s) := inferInstanceAs (Decidable (_ ∧ _))

/-- The keys agree before each exchange, and all that was sent is delivered in order. -/
def Faithful (c : Cipher) (s : Session) (es : List Exchange) : Prop :=
  (∀ t ∈ (run c s es).states, KeysAgree t) ∧
    (run c s es).payloads = es.map (fun e => e.payload) ∧
    (run c s es).responses = es.map fun e => e.execdata e.payload

/-- The lengths the protocol has room for. -/
def Exchange.Fits (e : Exchange) : Prop :=
  (1 ≤ e.payload.length ∧ e.payload.length ≤ 4062) ∧
    1 ≤ (e.execdata e.payload).length ∧ (e.execdata e.payload).length ≤ 4062

/-! ## One message -/

theorem padded_eq (len : Nat) : padded len = (len + 15) / 16 * 16 := by
  have hand : len &&& 0xf = len % 16 := Nat.and_two_pow_sub_one_eq_mod len 4
  have hshift : ((len >>> 4) + 1) <<< 4 = (len / 16 + 1) * 16 := by
    rw [Nat.shiftRight_eq_div_pow, Nat.shiftLeft_eq]
  rw [padded, hand, hshift]
  split
  · omega
  · omega

/-- A whole number of blocks, and no more than a block behind the bytes. -/
theorem padded_shiftRight (len : Nat) : (padded len >>> 4) * 16 = padded len := by
  rw [Nat.shiftRight_eq_div_pow, padded_eq]
  omega

theorem padded_and (len : Nat) : padded len &&& 0xf = 0 := by
  have hand : padded len &&& 0xf = padded len % 16 := Nat.and_two_pow_sub_one_eq_mod _ 4
  rw [hand, padded_eq]
  omega

theorem le_padded (len : Nat) : len ≤ padded len := by
  rw [padded_eq]
  omega

/-- The loop gets its bytes, however the transport cuts them. -/
theorem readLoop_eq (cut : Nat → Nat) {fuel n : Nat} {queue : List UInt8} (hn : n ≤ fuel)
    (hq : n ≤ queue.length) :
    readLoop cut fuel n queue = some (queue.take n, queue.drop n) := by
  induction fuel generalizing n queue with
  | zero =>
    obtain rfl := Nat.le_zero.mp hn
    rfl
  | succ fuel ih =>
    rw [readLoop]
    by_cases h0 : n = 0
    · rw [if_pos h0, h0]
      rfl
    · have hne : queue ≠ [] := by
        rintro rfl
        exact h0 (Nat.le_zero.mp hq)
      rw [if_neg h0, if_neg hne]
      generalize hgot : min (max 1 (cut n)) (min n queue.length) = got
      have hle : got ≤ n := by omega
      show (readLoop cut fuel (n - got) (queue.drop got)).map _ = _
      rw [ih (by omega) (by rw [List.length_drop]; omega), Option.map_some]
      have htake : queue.take got ++ (queue.drop got).take (n - got) = queue.take n := by
        rw [← List.take_add, Nat.add_sub_cancel' hle]
      have hdrop : (queue.drop got).drop (n - got) = queue.drop n := by
        rw [List.drop_drop, Nat.add_sub_cancel' hle]
      simp only [htake, hdrop]

theorem readBytes_append {bytes rest : List UInt8} {n : Nat} (h : bytes.length = n) :
    readBytes n (bytes ++ rest) = some (bytes, rest) := by
  rw [readBytes, if_pos (by rw [List.length_append]; omega), List.take_left' h, List.drop_left' h]

section

variable (c : Cipher) (newKey : Key) (data : List UInt8) (junk : Nat → UInt8)

theorem tempBuffer_length :
    (tempBuffer newKey data junk).length = padded (data.length + 2 + 32) := by
  have := le_padded (data.length + 2 + 32)
  simp only [tempBuffer, List.length_append, leBytes_length, Vector.length_toList, List.length_map,
    List.length_range]
  omega

/-- The next key stands where the receiver takes it. -/
theorem window_tempBuffer : window 0 32 ((tempBuffer newKey data junk).drop 2) = newKey := by
  rw [tempBuffer, List.drop_left' (leBytes_length _ _), window_append]

theorem leVal_tempBuffer (h : data.length < 2 ^ 16) :
    leVal ((tempBuffer newKey data junk).take 2) = data.length := by
  rw [tempBuffer, List.take_left' (leBytes_length _ _)]
  exact leVal_leBytes h

/-- The bytes stand where the receiver takes them. -/
theorem message_tempBuffer (h : data.length < 2 ^ 16) :
    message (tempBuffer newKey data junk) = data := by
  rw [message, leVal_tempBuffer newKey data junk h, tempBuffer, ← List.append_assoc]
  rw [List.drop_left' (by rw [List.length_append, leBytes_length, Vector.length_toList]),
    List.take_left' rfl]

/-- A message is a header and a body of that length. -/
theorem pack_fst (p : Keys) : ∃ body, body.length = padded (data.length + 2 + 32) ∧
    (pack c p newKey data junk).1 = leBytes 4 (padded (data.length + 2 + 32)) ++ body ∧
    ∀ q : Keys, q.decKey = p.encKey → q.decIV = p.encIV →
      unpack c q body = (tempBuffer newKey data junk,
        { q with decKey := newKey, decIV := (pack c p newKey data junk).2.encIV }) := by
  generalize hlen : padded (data.length + 2 + 32) = len
  have hblocks : (tempBuffer newKey data junk).length = (len >>> 4) * 16 := by
    rw [tempBuffer_length, ← hlen, padded_shiftRight]
  have hbody : (c.iEnc256CBC p.encKey p.encIV (len >>> 4) (tempBuffer newKey data junk)).1.length
      = len := by
    rw [Cipher.iEnc256CBC_length, ← hlen, padded_shiftRight]
  refine ⟨(c.iEnc256CBC p.encKey p.encIV (len >>> 4) (tempBuffer newKey data junk)).1, hbody, ?_,
    fun q hkey hiv => ?_⟩
  · simp only [pack, hlen]
  · simp only [unpack, hbody, hkey, hiv, c.iDec256CBC_iEnc256CBC _ _ hblocks, window_tempBuffer,
      pack, hlen]

end

/-! ## One exchange -/

/-- Both directions agree on key and IV, and nothing is under way. -/
structure InStep (s : Session) : Prop where
  there : s.server.encKey = s.client.decKey
  back : s.client.encKey = s.server.decKey
  thereIV : s.server.encIV = s.client.decIV
  backIV : s.client.encIV = s.server.decIV
  toClient : s.toClient = []
  toServer : s.toServer = []

theorem InStep.keysAgree {s : Session} (h : InStep s) : KeysAgree s := ⟨h.there, h.back⟩

section

variable {c : Cipher} {s : Session} {data : List UInt8} {x : Chance}

/-- All that is there is read, in whatever pieces it comes. -/
theorem readLoop_all (cut : Nat → Nat) {n : Nat} {body : List UInt8} (hlen : body.length = n) :
    readLoop cut n n body = some (body, []) := by
  rw [readLoop_eq cut (Nat.le_refl _) (Nat.le_of_eq hlen.symm), ← hlen, List.take_length,
    List.drop_length]

/-- A payload arrives as it was sent. -/
theorem sendPayload_spec (hs : InStep s) (hfit : data.length ≤ 4062) :
    ∃ s', sendPayload c s data x = some (data, s') ∧ InStep s' := by
  have hpad := padded_eq (data.length + 2 + 32)
  obtain ⟨body, hlen, hbytes, hbody⟩ := pack_fst c x.newKey data x.junk s.server
  have hmax : ¬ maxPayloadSize < padded (data.length + 2 + 32) := by
    rw [maxPayloadSize]
    omega
  -- the header goes through the hook as it is
  have hheader : readBytes 4 (s.toClient ++ (pack c s.server x.newKey data x.junk).1)
      = some (leBytes 4 (padded (data.length + 2 + 32)), body) := by
    rw [hs.toClient, hbytes, List.nil_append, readBytes_append (leBytes_length _ _)]
  have hval : leVal (leBytes 4 (padded (data.length + 2 + 32))) = padded (data.length + 2 + 32) :=
    leVal_leBytes (by omega)
  have hloop := readLoop_all x.cut hlen
  refine ⟨{ s with
    server := (pack c s.server x.newKey data x.junk).2
    client := (unpack c s.client body).2
    toClient := [] }, ?_, ?_⟩
  · have hbuf : ¬ maxBufferSize < padded (data.length + 2 + 32) := by
      rw [maxBufferSize]
      omega
    have hzero : padded (data.length + 2 + 32) ≠ 0 := by omega
    have hfour : padded (data.length + 2 + 32) ≠ 4 := by omega
    have hand : ¬ padded (data.length + 2 + 32) &&& 0xf ≠ 0 := by
      rw [padded_and]
      exact fun h => h rfl
    simp only [sendPayload, encryptSend, if_neg hmax, Option.bind_some, clientRecv, encryptRecv,
      if_pos, hheader, Option.map_some, hval, if_neg hbuf, if_neg hzero, if_neg hfour, hloop,
      if_neg hand]
    rw [hbody s.client hs.there.symm hs.thereIV.symm]
    simp only [message_tempBuffer x.newKey data x.junk (by omega)]
  · rw [hbody s.client hs.there.symm hs.thereIV.symm]
    exact ⟨rfl, hs.back, rfl, hs.backIV, rfl, hs.toServer⟩

/-- A response that is not four bytes long arrives as it was sent. -/
theorem sendResponse_spec {maxLen : Nat} (hs : InStep s) (hfour : data.length ≠ 4)
    (hfit : data.length ≤ 4062) (hroom : padded (data.length + 2 + 32) ≤ maxLen) :
    ∃ s', sendResponse c s data x maxLen = some (data, s') ∧ InStep s' := by
  have hpad := padded_eq (data.length + 2 + 32)
  obtain ⟨body, hlen, hbytes, hbody⟩ := pack_fst c x.newKey data x.junk s.client
  have hmax : ¬ maxPayloadSize < padded (data.length + 2 + 32) := by
    rw [maxPayloadSize]
    omega
  have hheader : readBytes 4 (s.toServer ++ (pack c s.client x.newKey data x.junk).1)
      = some (leBytes 4 (padded (data.length + 2 + 32)), body) := by
    rw [hs.toServer, hbytes, List.nil_append, readBytes_append (leBytes_length _ _)]
  have hval : leVal (leBytes 4 (padded (data.length + 2 + 32))) = padded (data.length + 2 + 32) :=
    leVal_leBytes (by omega)
  have hloop := readLoop_all x.cut hlen
  refine ⟨{ s with
    server := (unpack c s.server body).2
    client := (pack c s.client x.newKey data x.junk).2
    toServer := [] }, ?_, ?_⟩
  · have hsmall : ¬ (2 ^ 31 ≤ padded (data.length + 2 + 32) ∨
        maxLen < padded (data.length + 2 + 32)) := by omega
    have hzero : body.length ≠ 0 := by omega
    have hand : ¬ (body.length &&& 0x0F ≠ 0 ∨ maxPayloadSize < body.length) := by
      rw [hlen, padded_and]
      exact fun h => h.elim (fun h => h rfl) hmax
    have hinner : ¬ maxPayloadSize < data.length := by
      rw [maxPayloadSize]
      omega
    simp only [sendResponse, clientSend, encryptSendHook, leBytes_length, if_pos, Option.bind_some,
      if_neg hfour, if_neg hmax, readAESResponse, readResponse, hheader, hval, if_neg hsmall,
      hloop, Option.map_some, if_neg hzero, if_neg hand]
    rw [hbody s.server hs.back.symm hs.backIV.symm]
    simp only [leVal_tempBuffer x.newKey data x.junk (by omega), if_neg hinner,
      message_tempBuffer x.newKey data x.junk (by omega)]
  · rw [hbody s.server hs.back.symm hs.backIV.symm]
    exact ⟨hs.there, rfl, hs.thereIV, rfl, hs.toClient, rfl⟩

/-- **A response of four bytes never leaves the client**, and the server waits. -/
theorem sendResponse_four {maxLen : Nat} (hs : InStep s) (hfour : data.length = 4) :
    sendResponse c s data x maxLen = none := by
  have hnone : readBytes 4 s.toServer = none := by
    rw [hs.toServer]
    rfl
  simp only [sendResponse, clientSend, encryptSendHook, leBytes_length, if_pos, Option.bind_some,
    hfour, readAESResponse, readResponse, hnone, Option.bind_none]

end

/-- The session starts in step. -/
theorem initAES_spec (c : Cipher) (f : Fields) (x : Chance) :
    ∃ s, initAES c f x = some s ∧ InStep s := by
  have hs : InStep
      { server := ⟨f.decKey, f.encKey, f.decIV, f.encIV⟩
        client := ⟨f.encKey, f.decKey, f.encIV, f.decIV⟩
        toClient := []
        toServer := [] } := ⟨rfl, rfl, rfl, rfl, rfl, rfl⟩
  obtain ⟨s, hsend, hstep⟩ := @sendResponse_spec c _ aesReply x aesPayloadLen hs (by decide)
    (by decide) (by decide)
  refine ⟨s, ?_, hstep⟩
  simp only [initAES, hsend, Option.bind_some, if_pos]

/-! ## Sessions -/

theorem Exchange.Fits.room {e : Exchange} (h : e.Fits) :
    padded ((e.execdata e.payload).length + 2 + 32) ≤ maxPayloadSize := by
  have := h.2.2
  rw [padded_eq, maxPayloadSize]
  omega

/-- From a state in step the run is faithful as long as no response is four bytes long. -/
theorem faithful_iff (c : Cipher) {s : Session} (hs : InStep s) {es : List Exchange}
    (hes : ∀ e ∈ es, e.Fits) :
    Faithful c s es ↔ ∀ e ∈ es, (e.execdata e.payload).length ≠ 4 := by
  induction es generalizing s with
  | nil =>
    refine ⟨fun _ e he => absurd he List.not_mem_nil, fun _ => ⟨fun t ht => ?_, rfl, rfl⟩⟩
    rw [run, List.mem_singleton] at ht
    rw [ht]
    exact hs.keysAgree
  | cons e es ih =>
    have hfits := hes e List.mem_cons_self
    obtain ⟨s₁, hsend, hs₁⟩ := @sendPayload_spec c s e.payload e.there hs hfits.1.2
    by_cases hfour : (e.execdata e.payload).length = 4
    · -- the response is lost, and with it the rest of the session
      have hrun : run c s (e :: es) = ⟨[s], [e.payload], []⟩ := by
        simp only [run, hsend, sendResponse_four hs₁ hfour]
      refine ⟨fun h => ?_, fun h => absurd hfour (h e List.mem_cons_self)⟩
      have := h.2.2
      rw [hrun, List.map_cons] at this
      cases this
    · obtain ⟨s₂, hback, hs₂⟩ := @sendResponse_spec c s₁ (e.execdata e.payload) e.back
        maxPayloadSize hs₁ hfour hfits.2.2 hfits.room
      have hrun : run c s (e :: es) = ⟨s :: (run c s₂ es).states,
          e.payload :: (run c s₂ es).payloads,
          e.execdata e.payload :: (run c s₂ es).responses⟩ := by
        simp only [run, hsend, hback]
      have hcons : Faithful c s (e :: es) ↔ Faithful c s₂ es := by
        unfold Faithful
        rw [hrun]
        simp only [List.mem_cons, forall_eq_or_imp, List.map_cons, List.cons.injEq, true_and,
          hs.keysAgree]
      rw [hcons, ih hs₂ fun e' he' => hes e' (List.mem_cons_of_mem _ he'), List.forall_mem_cons]
      exact ⟨fun h => ⟨hfour, h⟩, fun h => h.2⟩

/-- **The ratchet keeps step, and loses nothing, exactly when no response is four bytes long.** Of
any session after `InitAES` whose messages have room. -/
theorem ratchet_agreement_iff (c : Cipher) (f : Fields) (x : Chance) (es : List Exchange)
    (hes : ∀ e ∈ es, e.Fits) :
    ∃ s, initAES c f x = some s ∧
      (Faithful c s es ↔ ∀ e ∈ es, (e.execdata e.payload).length ≠ 4) := by
  obtain ⟨s, hinit, hs⟩ := initAES_spec c f x
  exact ⟨s, hinit, faithful_iff c hs hes⟩

/-! A cipher that mixes the first half of the key in. -/

def toyCipher : Cipher where
  enc k b := pxor b (window 0 16 k.toList)
  dec k b := pxor b (window 0 16 k.toList)
  dec_enc _ b := pxor_pxor b _

def toyFields : Fields :=
  ⟨Vector.replicate 32 1, Vector.replicate 32 2, Vector.replicate 16 3, Vector.replicate 16 4⟩

def toyChance (k : UInt8) : Chance := ⟨Vector.replicate 32 k, fun _ => 0x90, fun n => n / 2⟩

/-- A payload of one byte that answers with `n` bytes. -/
def toyExchange (n : Nat) : Exchange := ⟨[0xc3], fun _ => List.replicate n 7, toyChance 5, toyChance 6⟩

theorem ratchet_agreement_iff_three : ∃ s, initAES toyCipher toyFields (toyChance 9) = some s ∧
    (Faithful toyCipher s [toyExchange 3, toyExchange 8] ↔
      ∀ e ∈ [toyExchange 3, toyExchange 8], (e.execdata e.payload).length ≠ 4) :=
  ratchet_agreement_iff toyCipher toyFields (toyChance 9) [toyExchange 3, toyExchange 8] (by
    intro e he
    rcases List.mem_pair.mp he with rfl | rfl
    · exact ⟨by decide, by decide⟩
    · exact ⟨by decide, by decide⟩)

/-- A response of four bytes is lost, though it fits. -/
theorem ratchet_loses : (toyExchange 4).Fits ∧
    ∃ s, initAES toyCipher toyFields (toyChance 9) = some s ∧
      ¬ Faithful toyCipher s [toyExchange 4] := by
  have hfits : (toyExchange 4).Fits := ⟨by decide, by decide⟩
  obtain ⟨s, hinit, hs⟩ := initAES_spec toyCipher toyFields (toyChance 9)
  refine ⟨hfits, s, hinit, fun h => ?_⟩
  have hes : ∀ e ∈ [toyExchange 4], e.Fits := by
    intro e he
    rwa [List.mem_singleton.mp he]
  exact (faithful_iff toyCipher hs hes).mp h _ List.mem_cons_self rfl

end Quals2017.Liberty.Ratchet
