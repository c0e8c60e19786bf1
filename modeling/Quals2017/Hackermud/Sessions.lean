import Quals2017.Hackermud.Serving
import Quals2017.Lib.Framing

/-!
# One command (`hackermud/server/connection.cpp:52-129`, `main.cpp:82-92`,
`networkcommands.cpp:1046-1083,2575-2608`)

* `commandFraming`: what `SendCommand` writes and `RecvCommand` reads.
* `cmdTable_handled`, `ran_spec`: what a command does to the connections. Its own may get on; all of
  them may be closed.
* `Sound`: what holds of the connections and the history between the commands.
* **`Ran.sound`**: a command keeps it.
-/

namespace Quals2017.Hackermud

open Function (update)
open Quals2017.Lib Quals2017.Lib.LittleEndian

/-! ## Commands on the socket -/

theorem leBytes_leVal : ∀ bytes : List UInt8, leBytes bytes.length (leVal bytes) = bytes
  | [] => rfl
  | b :: bytes => by
    have hb := b.toNat_lt
    have hdiv : (b.toNat + 256 * leVal bytes) / 256 = leVal bytes := by omega
    have hmod : UInt8.ofNat (b.toNat + 256 * leVal bytes) = b := by
      rw [← UInt8.toNat_inj, UInt8.toNat_ofNat']
      omega
    rw [List.length_cons, leBytes, leVal, hdiv, hmod, leBytes_leVal bytes]

theorem recvCommand_sendCommand (cmdNumber : UInt8) {data : List UInt8} (rest : List UInt8)
    (hlen : data.length < 2 ^ 32) :
    recvCommand (sendCommand cmdNumber data ++ rest) = some (.command cmdNumber data, rest) := by
  have hval : leVal (leBytes 4 data.length) = data.length := leVal_leBytes hlen
  have hmod : (data.length + 5) % 2 ^ 32 ≤ (data ++ rest).length + 5 := by
    rw [List.length_append]
    omega
  have hshort : ¬ (data ++ rest).length < data.length := by
    rw [List.length_append]
    omega
  simp only [leBytes] at hval
  simp only [sendCommand, leBytes, List.cons_append, List.nil_append, recvCommand, hval,
    if_pos hmod, if_neg hshort, List.take_left, List.drop_left]

theorem recvCommand_command {pending rest data : List UInt8} {cmdNumber : UInt8}
    (h : recvCommand pending = some (.command cmdNumber data, rest)) :
    pending = sendCommand cmdNumber data ++ rest ∧ data.length < 2 ^ 32 := by
  unfold recvCommand at h
  split at h
  · next n l0 l1 l2 l3 rest' =>
    dsimp only at h
    split_ifs at h with hall hshort
    · cases h
    · cases h
      have hlt : leVal [l0, l1, l2, l3] < 2 ^ 32 :=
        lt_of_lt_of_eq (leVal_lt [l0, l1, l2, l3]) (by simp)
      have hlen : (rest'.take (leVal [l0, l1, l2, l3])).length = leVal [l0, l1, l2, l3] := by
        rw [List.length_take]
        omega
      have hbytes : leBytes 4 (leVal [l0, l1, l2, l3]) = [l0, l1, l2, l3] :=
        leBytes_leVal [l0, l1, l2, l3]
      refine ⟨?_, lt_of_eq_of_lt hlen hlt⟩
      simp only [sendCommand, hlen, hbytes, List.cons_append, List.nil_append,
        List.take_append_drop]
  · cases h

/-- Commands, as `SendCommand` puts them on a socket and `RecvCommand` takes them off. -/
def commandFraming : Framing UInt8 (UInt8 × List UInt8) where
  Valid m := m.2.length < 2 ^ 32
  encode m := sendCommand m.1 m.2
  take pending :=
    match recvCommand pending with
    | some (.command cmdNumber data, rest) => some ((cmdNumber, data), rest)
    | _ => none
  take_nil := rfl
  take_encode m rest hm := by rw [recvCommand_sendCommand m.1 rest hm]

namespace Server

variable {W : Type} {h : Handlers W} {s s' : Server W} {i : Nat}

/-- The bytes of commands. -/
def encoded (cmds : List (UInt8 × List UInt8)) : List UInt8 := cmds.flatMap commandFraming.encode

/-- The commands of a connection, in the order of the calls. -/
def callsOf (s : Server W) (i : Nat) : List (UInt8 × List UInt8) :=
  (s.log.filter fun e => e.connection = i).map fun e => (e.cmdNumber, e.data)

/-! ## One command -/

/-- A connection that is left alone or closed. -/
def Fades (c c' : ServerConnection) : Prop := c' = c ∨ c' = c.disconnect

theorem Fades.trans {c c' c'' : ServerConnection} (h : Fades c c') (h' : Fades c' c'') :
    Fades c c'' := by
  rcases h with rfl | rfl
  · exact h'
  · exact .inr (h'.elim id id)

/-- No connection does more than fade. -/
def Fade (s s' : Server W) : Prop :=
  ∀ j c', s'.connections j = some c' → ∃ c, s.connections j = some c ∧ Fades c c'

theorem Fade.trans {s'' : Server W} (h : Fade s s') (h' : Fade s' s'') : Fade s s'' := by
  intro j c'' hc''
  obtain ⟨c', hc', hfade'⟩ := h' j c'' hc''
  obtain ⟨c, hc, hfade⟩ := h j c' hc'
  exact ⟨c, hc, hfade.trans hfade'⟩

/-- The history is the same. -/
def SameHistory (s s' : Server W) : Prop :=
  s'.next = s.next ∧ s'.terminated = s.terminated ∧ s'.challenge = s.challenge ∧
    s'.received = s.received ∧ s'.log = s.log

theorem close_some {closes : Nat → Bool} {j : Nat} {c' : ServerConnection}
    (hc' : (s.close closes).connections j = some c') :
    ∃ c, s.connections j = some c ∧ c' = if closes j then c.disconnect else c := by
  obtain ⟨c, hc, rfl⟩ := Option.map_eq_some_iff.mp hc'
  exact ⟨c, hc, rfl⟩

theorem close_fade (s : Server W) (closes : Nat → Bool) : Fade s (s.close closes) := by
  intro j c' hc'
  obtain ⟨c, hc, rfl⟩ := close_some hc'
  refine ⟨c, hc, ?_⟩
  by_cases hj : closes j
  · exact .inr (if_pos hj)
  · exact .inl (if_neg hj)

theorem setConnection_same (s : Server W) (i : Nat) (c : ServerConnection) :
    (s.setConnection i c).connections i = some c := Function.update_self ..

theorem setConnection_ne (s : Server W) (c : ServerConnection) {j : Nat} (hj : j ≠ i) :
    (s.setConnection i c).connections j = s.connections j := Function.update_of_ne hj ..

theorem apply_fade (s : Server W) (e : Effect W) : Fade s (s.apply e) :=
  close_fade { s with world := e.world } e.closes

theorem fade_refl (s : Server W) : Fade s s := fun _ c' hc' => ⟨c', hc', .inl rfl⟩

theorem Fade.setConnection (hfade : Fade s s') (i : Nat) (c : ServerConnection) :
    Fade (s.setConnection i c) (s'.setConnection i c) := by
  intro j c' hc'
  by_cases hj : j = i
  · subst hj
    rw [setConnection_same] at hc' ⊢
    exact ⟨c', hc', .inl rfl⟩
  · rw [setConnection_ne _ _ hj] at hc' ⊢
    exact hfade j c' hc'

theorem fade_setConnection_self {c : ServerConnection} (hc : s.connections i = some c) :
    Fade (s.setConnection i c) s := by
  intro j c' hc'
  refine ⟨c', ?_, .inl rfl⟩
  by_cases hj : j = i
  · subst hj
    rw [setConnection_same, ← hc, hc']
  · rw [setConnection_ne _ _ hj, hc']

/-- What a command makes of its own connection. -/
inductive Advances (h : Handlers W) (c : ServerConnection) (data : List UInt8) :
    UInt8 → Option Bool → ServerConnection → Prop
  | stays (cmdNumber : UInt8) (result : Option Bool) : Advances h c data cmdNumber result c
  | proves (hstate : c.connectionState = .waitProof) (hlen : data.length = 17 * 4)
    (htest : (testSolution c.toConnection data).test h.blake2b = true) :
    Advances h c data 15 (some true) { c with toConnection := c.toConnection.acceptProof }
  | logsIn (result : Bool) (hstate : c.connectionState = .waitAuth) :
    Advances h c data 0 (some result) c.authenticate

/-- What a handler does to the connections, with its own one first. -/
structure Handled (h : Handlers W) (s : Server W) (i : Nat) (c : ServerConnection)
    (cmdNumber : UInt8) (data : List UInt8) (out : Server W × Bool) : Prop where
  history : SameHistory s out.1
  fades : ∃ c₁, Advances h c data cmdNumber (some out.2) c₁ ∧ Fade (s.setConnection i c₁) out.1

theorem handled_fade {c : ServerConnection} (hc : s.connections i = some c) {out : Server W × Bool}
    (history : SameHistory s out.1) (hfade : Fade s out.1) (cmdNumber : UInt8)
    (data : List UInt8) : Handled h s i c cmdNumber data out :=
  ⟨history, c, .stays .., (fade_setConnection_self hc).trans hfade⟩

theorem nwcAuth_handled {c : ServerConnection} (hc : s.connections i = some c)
    (data : List UInt8) : Handled h s i c 0 data (s.nwcAuth h i c data) := by
  rw [nwcAuth]
  by_cases hstate : c.connectionState = .waitAuth
  · rw [if_neg (not_not.mpr hstate)]
    obtain ⟨world, exits⟩ := h.auth s.world i data
    cases exits with
    | none => exact handled_fade hc ⟨rfl, rfl, rfl, rfl, rfl⟩ (fade_refl s) 0 data
    | some exits =>
      refine ⟨⟨rfl, rfl, rfl, rfl, rfl⟩, c.authenticate, .logsIn _ hstate, ?_⟩
      exact (Fade.setConnection (close_fade { s with world := world } _) i _).trans
        (apply_fade _ _)
  · rw [if_pos hstate]
    exact handled_fade hc ⟨rfl, rfl, rfl, rfl, rfl⟩ (fade_refl s) 0 data

theorem nwcCreatePlayer_handled {c : ServerConnection} (hc : s.connections i = some c)
    (data : List UInt8) : Handled h s i c 14 data (s.nwcCreatePlayer h i c data) := by
  rw [nwcCreatePlayer]
  split
  · exact handled_fade hc ⟨rfl, rfl, rfl, rfl, rfl⟩ (fade_refl s) 14 data
  · exact handled_fade hc ⟨rfl, rfl, rfl, rfl, rfl⟩ (apply_fade s _) 14 data

theorem nwcProof_handled (s : Server W) (i : Nat) (c : ServerConnection)
    (data : List UInt8) : Handled h s i c 15 data (s.nwcProof h i c data) := by
  have hstay (result : Bool) :
      Handled h s i c 15 data
        (s.setConnection i { c with toConnection := c.toConnection }, result) :=
    ⟨⟨rfl, rfl, rfl, rfl, rfl⟩, c, .stays .., fade_refl _⟩
  rw [nwcProof, nwcProofData]
  split_ifs with hstate hlen htest
  · exact hstay false
  · exact hstay false
  · exact hstay false
  · exact ⟨⟨rfl, rfl, rfl, rfl, rfl⟩, _, .proves (not_not.mp hstate) (not_not.mp hlen)
      (by simpa using htest), fade_refl _⟩

/-- **Every handler.** -/
theorem cmdTable_handled {c : ServerConnection} (hc : s.connections i = some c) (cmdNumber : UInt8)
    (data : List UInt8) : Handled h s i c cmdNumber data (s.cmdTable h i c cmdNumber data) := by
  rw [cmdTable]
  split_ifs with h0 h14 h15
  · exact h0 ▸ nwcAuth_handled hc data
  · exact h14 ▸ nwcCreatePlayer_handled hc data
  · exact h15 ▸ nwcProof_handled s i c data
  · exact handled_fade hc ⟨rfl, rfl, rfl, rfl, rfl⟩ (apply_fade s _) cmdNumber data

/-- A command as a whole: the call, and `Disconnect` where it has failed. -/
def ran (h : Handlers W) (s : Server W) (i : Nat) (c : ServerConnection) (cmdNumber : UInt8)
    (data : List UInt8) : Server W :=
  let (s, result) := s.doNetworkCommand h i c cmdNumber data
  if result then s else s.close (· == i)

/-- **What one command does.** -/
structure Ran (h : Handlers W) (s : Server W) (i : Nat) (c : ServerConnection) (cmdNumber : UInt8)
    (data : List UInt8) (result : Option Bool) (s' : Server W) : Prop where
  next : s'.next = s.next
  terminated : s'.terminated = s.terminated
  challenge : s'.challenge = s.challenge
  received : s'.received = s.received
  log : s'.log = s.log ++ [⟨i, cmdNumber, data, result⟩]
  fades : ∃ c₁, Advances h c data cmdNumber result c₁ ∧ Fade (s.setConnection i c₁) s'
  gate : result ≠ none → accepts c cmdNumber
  stops : result ≠ some true → ∀ c', s'.connections i = some c' →
    ∃ c₁ : ServerConnection, c' = c₁.disconnect

theorem ran_spec {c : ServerConnection} (hc : s.connections i = some c) (cmdNumber : UInt8)
    (data : List UInt8) :
    ∃ result, Ran h s i c cmdNumber data result (ran h s i c cmdNumber data) := by
  have hclosed {t : Server W} {c' : ServerConnection}
      (hc' : (t.close (· == i)).connections i = some c') :
      ∃ c₁ : ServerConnection, c' = c₁.disconnect := by
    obtain ⟨c₁, -, rfl⟩ := close_some hc'
    exact ⟨c₁, if_pos (beq_self_eq_true i)⟩
  rw [ran, doNetworkCommand]
  by_cases hgate : accepts c cmdNumber
  · rw [if_pos hgate]
    obtain ⟨⟨hnext, hterm, hchal, hrec, hlog⟩, c₁, hadv, hfade⟩ :=
      cmdTable_handled (h := h) hc cmdNumber data
    generalize s.cmdTable h i c cmdNumber data = out at *
    obtain ⟨t, result⟩ := out
    refine ⟨some result, ?_⟩
    cases result with
    | true =>
      exact ⟨hnext, hterm, hchal, hrec, congrArg (· ++ _) hlog, ⟨c₁, hadv, hfade⟩,
        fun _ => hgate, fun hne => absurd rfl hne⟩
    | false =>
      refine ⟨hnext, hterm, hchal, hrec, congrArg (· ++ _) hlog,
        ⟨c₁, hadv, hfade.trans ?_⟩, fun _ => hgate, fun _ c' hc' => hclosed hc'⟩
      exact close_fade { t with log := _ } _
  · rw [if_neg hgate]
    refine ⟨none, rfl, rfl, rfl, rfl, rfl, ⟨c, .stays .., ?_⟩, fun hne => absurd rfl hne,
      fun _ c' hc' => hclosed hc'⟩
    exact (fade_setConnection_self hc).trans (close_fade { s with log := _ } _)

/-! ## Between the commands -/

/-- An answer to the challenge of a connection. -/
def Solves (h : Handlers W) (s : Server W) (i : Nat) (data : List UInt8) : Prop :=
  data.length = 17 * 4 ∧ (testSolution ⟨.waitProof, s.challenge i⟩ data).test h.blake2b = true

/-- What was called before a call: nothing that has failed; for a handler, a good answer to the
challenge; for the commands of players, a login as well. -/
def Passed (h : Handlers W) (s : Server W) (pre : List Entry) (e : Entry) : Prop :=
  (∀ e' ∈ pre, e'.connection = e.connection → e'.result = some true) ∧
    (e.result ≠ none → e.cmdNumber ≠ 15 →
      ∃ e' ∈ pre, e'.connection = e.connection ∧ e'.cmdNumber = 15 ∧
        Solves h s e.connection e'.data) ∧
    (e.result ≠ none → e.cmdNumber ≠ 15 → e.cmdNumber ≠ 0 → e.cmdNumber ≠ 14 →
      ∃ e' ∈ pre, e'.connection = e.connection ∧ e'.cmdNumber = 0)

/-- What holds of the connections and the history. -/
structure Sound (h : Handlers W) (s : Server W) : Prop where
  fresh : ∀ i, s.next ≤ i → s.connections i = none ∧ s.received i = []
  known : ∀ e ∈ s.log, e.connection < s.next
  seed : ∀ i c, s.connections i = some c → c.proofSeed = s.challenge i
  socket : ∀ i c, s.connections i = some c → (c.socket = true ↔ c.connectionState ≠ .disconnect)
  valid : ∀ e ∈ s.log, e.data.length < 2 ^ 32
  reads : ∀ i, encoded (s.callsOf i) <+: s.received i
  failed : ∀ e ∈ s.log, e.result ≠ some true → ∀ c, s.connections e.connection = some c →
    c.connectionState = .disconnect
  proved : ∀ i c, s.connections i = some c →
    c.connectionState = .waitAuth ∨ c.connectionState = .player →
      ∃ e ∈ s.log, e.connection = i ∧ e.cmdNumber = 15 ∧ Solves h s i e.data
  loggedIn : ∀ i c, s.connections i = some c → c.connectionState = .player →
    ∃ e ∈ s.log, e.connection = i ∧ e.cmdNumber = 0
  past : ∀ pre e post, s.log = pre ++ e :: post → Passed h s pre e

/-- The stream of an open connection is what is left of the bytes. -/
def Stream (s : Server W) (i : Nat) (pending : List UInt8) : Prop :=
  encoded (s.callsOf i) ++ pending = s.received i

theorem callsOf_same {e : Entry} (hlog : s'.log = s.log ++ [e]) :
    s'.callsOf e.connection = s.callsOf e.connection ++ [(e.cmdNumber, e.data)] := by
  simp [callsOf, hlog]

theorem callsOf_ne {e : Entry} (hlog : s'.log = s.log ++ [e]) {j : Nat} (hj : j ≠ e.connection) :
    s'.callsOf j = s.callsOf j := by
  simp [callsOf, hlog, hj.symm]

/-- A connection has got a length that throws. -/
def Thrown (s : Server W) (i : Nat) : Prop :=
  ∃ pending rest, s.Stream i pending ∧ recvCommand pending = some (.throws, rest)

/-- A list with one more entry, taken apart. -/
theorem append_singleton_cases {α : Type} {l pre post : List α} {a x : α}
    (hl : l ++ [a] = pre ++ x :: post) :
    (pre = l ∧ x = a) ∨ ∃ post', l = pre ++ x :: post' := by
  rcases List.eq_nil_or_concat post with rfl | ⟨post', y, rfl⟩
  · obtain ⟨rfl, hx⟩ := List.append_inj' hl rfl
    exact .inl ⟨rfl, (List.cons.inj hx).1.symm⟩
  · refine .inr ⟨post', ?_⟩
    rw [List.concat_eq_append, ← List.cons_append, ← List.append_assoc] at hl
    exact List.append_inj_left' hl rfl

theorem Fades.cases {c c' : ServerConnection} (hfade : Fades c c') :
    c'.proofSeed = c.proofSeed ∧ c'.pending = c.pending ∧ (c'.socket = true → c' = c) ∧
      (c'.connectionState ≠ .disconnect → c' = c) := by
  rcases hfade with rfl | rfl
  · exact ⟨rfl, rfl, fun _ => rfl, fun _ => rfl⟩
  · exact ⟨rfl, rfl, nofun, fun hne => absurd rfl hne⟩

theorem Advances.cases {c c₁ : ServerConnection} {data : List UInt8} {cmdNumber : UInt8}
    {result : Option Bool} (hadv : Advances h c data cmdNumber result c₁) :
    c₁.proofSeed = c.proofSeed ∧ c₁.pending = c.pending ∧ c₁.socket = c.socket ∧
      (c.connectionState ≠ .disconnect → c₁.connectionState ≠ .disconnect) := by
  cases hadv with
  | stays => exact ⟨rfl, rfl, rfl, id⟩
  | proves => exact ⟨rfl, rfl, rfl, fun _ => nofun⟩
  | logsIn => exact ⟨rfl, rfl, rfl, fun _ => nofun⟩

theorem accepts_cases {c : ServerConnection} {cmdNumber : UInt8} (hgate : accepts c cmdNumber) :
    (c.connectionState = .waitProof ∧ cmdNumber = 15) ∨
      (c.connectionState = .waitAuth ∧ (cmdNumber = 0 ∨ cmdNumber = 14)) ∨
      c.connectionState = .player := by
  have hstate := (Bool.and_eq_true_iff.mp hgate).2
  cases hc : c.connectionState with
  | waitProof => exact .inl ⟨rfl, by simpa [hc] using hstate⟩
  | waitAuth => exact .inr (.inl ⟨rfl, by simpa [hc] using hstate⟩)
  | player => exact .inr (.inr rfl)
  | disconnect => simp [hc] at hstate

section

variable {c : ServerConnection} {cmdNumber : UInt8} {data rest : List UInt8} {result : Option Bool}

theorem Ran.connection (hran : Ran h s i c cmdNumber data result s') {j : Nat}
    {c' : ServerConnection} (hc' : s'.connections j = some c') :
    (j ≠ i ∧ ∃ c₀, s.connections j = some c₀ ∧ Fades c₀ c') ∨
      (j = i ∧ ∃ c₁, Advances h c data cmdNumber result c₁ ∧ Fades c₁ c') := by
  obtain ⟨c₁, hadv, hfade⟩ := hran.fades
  obtain ⟨c₀, hc₀, hfades⟩ := hfade j c' hc'
  by_cases hj : j = i
  · subst hj
    rw [setConnection_same] at hc₀
    exact .inr ⟨rfl, c₁, hadv, Option.some.inj hc₀ ▸ hfades⟩
  · rw [setConnection_ne _ _ hj] at hc₀
    exact .inl ⟨hj, c₀, hc₀, hfades⟩

theorem Sound.lt_next (hs : Sound h s) (hc : s.connections i = some c) : i < s.next := by
  by_contra hge
  rw [(hs.fresh i (Nat.le_of_not_lt hge)).1] at hc
  cases hc

theorem Sound.open (hs : Sound h s) (hc : s.connections i = some c) (hsocket : c.socket = true) :
    c.connectionState ≠ .disconnect := (hs.socket i c hc).mp hsocket

theorem Passed.mono {pre : List Entry} {e : Entry}
    (hchal : s'.challenge e.connection = s.challenge e.connection)
    (hpast : Passed h s pre e) : Passed h s' pre e := by
  unfold Passed Solves at hpast ⊢
  rwa [hchal]

theorem Ran.passed (hs : Sound h s) (hc : s.connections i = some c) (hsocket : c.socket = true)
    (hran : Ran h s i c cmdNumber data result s') :
    Passed h s s.log ⟨i, cmdNumber, data, result⟩ := by
  refine ⟨fun e' he' hi => ?_, fun hresult hnot => ?_, fun hresult h15 h0 h14 => ?_⟩
  · by_contra hfailed
    exact hs.open hc hsocket (hs.failed e' he' hfailed c (hi ▸ hc))
  · refine hs.proved i c hc ?_
    rcases accepts_cases (hran.gate hresult) with ⟨-, heq⟩ | ⟨hstate, -⟩ | hstate
    · exact absurd heq hnot
    · exact .inl hstate
    · exact .inr hstate
  · refine hs.loggedIn i c hc ?_
    rcases accepts_cases (hran.gate hresult) with ⟨-, heq⟩ | ⟨-, heq⟩ | hstate
    · exact absurd heq h15
    · exact absurd heq (not_or.mpr ⟨h0, h14⟩)
    · exact hstate

theorem Ran.mem_log (hran : Ran h s i c cmdNumber data result s') {e : Entry} :
    e ∈ s'.log ↔ e ∈ s.log ∨ e = ⟨i, cmdNumber, data, result⟩ := by
  rw [hran.log, List.mem_append, List.mem_singleton]

/-- The connection behind a state other than `CONNECTION_DISCONNECT`. -/
theorem Ran.state (hran : Ran h s i c cmdNumber data result s') {j : Nat} {c' : ServerConnection}
    (hc' : s'.connections j = some c') (hne : c'.connectionState ≠ .disconnect) :
    (j ≠ i ∧ s.connections j = some c') ∨ (j = i ∧ Advances h c data cmdNumber result c') := by
  rcases hran.connection hc' with ⟨hj, c₀, hc₀, hfades⟩ | ⟨hj, c₁, hadv, hfades⟩
  · exact .inl ⟨hj, hfades.cases.2.2.2 hne ▸ hc₀⟩
  · exact .inr ⟨hj, hfades.cases.2.2.2 hne ▸ hadv⟩

theorem Ran.keeps_fresh (hs : Sound h s) (hc : s.connections i = some c)
    (hran : Ran h s i c cmdNumber data result s') (j : Nat) (hj : s'.next ≤ j) :
    s'.connections j = none ∧ s'.received j = [] := by
  rw [hran.next] at hj
  obtain ⟨hnone, hnothing⟩ := hs.fresh j hj
  refine ⟨Option.eq_none_iff_forall_ne_some.mpr fun c' hc' => ?_, hran.received ▸ hnothing⟩
  rcases hran.connection hc' with ⟨-, c₀, hc₀, -⟩ | ⟨rfl, -⟩
  · rw [hnone] at hc₀
    cases hc₀
  · exact absurd (hs.lt_next hc) (Nat.not_lt.mpr hj)

theorem Ran.keeps_seed (hs : Sound h s) (hc : s.connections i = some c)
    (hran : Ran h s i c cmdNumber data result s') (j : Nat) (c' : ServerConnection)
    (hc' : s'.connections j = some c') : c'.proofSeed = s'.challenge j := by
  rw [hran.challenge]
  rcases hran.connection hc' with ⟨-, c₀, hc₀, hfades⟩ | ⟨rfl, c₁, hadv, hfades⟩
  · rw [hfades.cases.1, hs.seed j c₀ hc₀]
  · rw [hfades.cases.1, hadv.cases.1, hs.seed _ c hc]

theorem Ran.keeps_socket (hs : Sound h s) (hc : s.connections i = some c)
    (hsocket : c.socket = true) (hran : Ran h s i c cmdNumber data result s') (j : Nat)
    (c' : ServerConnection) (hc' : s'.connections j = some c') :
    c'.socket = true ↔ c'.connectionState ≠ .disconnect := by
  have hfaded {c₀ : ServerConnection} (hfades : Fades c₀ c')
      (hc₀ : c₀.socket = true ↔ c₀.connectionState ≠ .disconnect) :
      c'.socket = true ↔ c'.connectionState ≠ .disconnect := by
    rcases hfades with rfl | rfl
    · exact hc₀
    · exact iff_of_false nofun fun hne => hne rfl
  rcases hran.connection hc' with ⟨-, c₀, hc₀, hfades⟩ | ⟨rfl, c₁, hadv, hfades⟩
  · exact hfaded hfades (hs.socket j c₀ hc₀)
  · obtain ⟨-, -, hsock, hstate⟩ := hadv.cases
    exact hfaded hfades (iff_of_true (hsock.trans hsocket) (hstate (hs.open hc hsocket)))

theorem Ran.keeps_failed (hs : Sound h s) (hc : s.connections i = some c)
    (hsocket : c.socket = true) (hran : Ran h s i c cmdNumber data result s') (e : Entry)
    (he : e ∈ s'.log) (hresult : e.result ≠ some true) (c' : ServerConnection)
    (hc' : s'.connections e.connection = some c') : c'.connectionState = .disconnect := by
  rcases hran.mem_log.mp he with he | rfl
  · by_contra hne
    rcases hran.state hc' hne with ⟨-, hc₀⟩ | ⟨hi, -⟩
    · exact hne (hs.failed e he hresult c' hc₀)
    · exact hs.open hc hsocket (hs.failed e he hresult c (hi ▸ hc))
  · obtain ⟨c₁, rfl⟩ := hran.stops hresult c' hc'
    rfl

theorem Ran.keeps_proved (hs : Sound h s) (hc : s.connections i = some c)
    (hran : Ran h s i c cmdNumber data result s') (j : Nat) (c' : ServerConnection)
    (hc' : s'.connections j = some c')
    (hstate : c'.connectionState = .waitAuth ∨ c'.connectionState = .player) :
    ∃ e ∈ s'.log, e.connection = j ∧ e.cmdNumber = 15 ∧ Solves h s' j e.data := by
  have hne : c'.connectionState ≠ .disconnect := by
    rcases hstate with hstate | hstate <;> rw [hstate] <;> nofun
  have hfrom {c₀ : ServerConnection} {j : Nat} (hc₀ : s.connections j = some c₀)
      (hstate : c₀.connectionState = .waitAuth ∨ c₀.connectionState = .player) :
      ∃ e ∈ s'.log, e.connection = j ∧ e.cmdNumber = 15 ∧ Solves h s' j e.data := by
    obtain ⟨e, he, hconn, h15, hsolves⟩ := hs.proved j c₀ hc₀ hstate
    refine ⟨e, hran.mem_log.mpr (.inl he), hconn, h15, ?_⟩
    rw [Solves, hran.challenge]
    exact hsolves
  rcases hran.state hc' hne with ⟨-, hc₀⟩ | ⟨rfl, hadv⟩
  · exact hfrom hc₀ hstate
  · cases hadv with
    | stays => exact hfrom hc hstate
    | proves hwait hlen htest =>
      refine ⟨_, hran.mem_log.mpr (.inr rfl), rfl, rfl, hlen, ?_⟩
      rw [hran.challenge, ← hs.seed _ c hc]
      exact htest
    | logsIn _ hwait => exact hfrom hc (.inl hwait)

theorem Ran.keeps_loggedIn (hs : Sound h s) (hc : s.connections i = some c)
    (hran : Ran h s i c cmdNumber data result s') (j : Nat) (c' : ServerConnection)
    (hc' : s'.connections j = some c') (hstate : c'.connectionState = .player) :
    ∃ e ∈ s'.log, e.connection = j ∧ e.cmdNumber = 0 := by
  have hfrom {c₀ : ServerConnection} {j : Nat} (hc₀ : s.connections j = some c₀)
      (hstate : c₀.connectionState = .player) :
      ∃ e ∈ s'.log, e.connection = j ∧ e.cmdNumber = 0 := by
    obtain ⟨e, he, hconn⟩ := hs.loggedIn j c₀ hc₀ hstate
    exact ⟨e, hran.mem_log.mpr (.inl he), hconn⟩
  rcases hran.state hc' (hstate ▸ nofun) with ⟨-, hc₀⟩ | ⟨rfl, hadv⟩
  · exact hfrom hc₀ hstate
  · cases hadv with
    | stays => exact hfrom hc hstate
    | proves => cases hstate
    | logsIn => exact ⟨_, hran.mem_log.mpr (.inr rfl), rfl, rfl⟩

/-- **A command keeps it**, where its bytes are at the front of the stream. -/
theorem Ran.sound (hs : Sound h s) (hc : s.connections i = some c) (hsocket : c.socket = true)
    (hran : Ran h s i c cmdNumber data result s') (hlen : data.length < 2 ^ 32)
    (hstream : s.Stream i (sendCommand cmdNumber data ++ rest)) :
    Sound h s' ∧ s'.Stream i rest := by
  have hcalls : s'.callsOf i = s.callsOf i ++ [(cmdNumber, data)] := callsOf_same hran.log
  have hstream' : s'.Stream i rest := by
    rw [Stream, hcalls, hran.received, ← hstream, encoded, List.flatMap_append,
      List.flatMap_singleton, List.append_assoc]
    rfl
  refine ⟨⟨hran.keeps_fresh hs hc, fun e he => ?_, hran.keeps_seed hs hc,
    hran.keeps_socket hs hc hsocket, fun e he => ?_, fun j => ?_, hran.keeps_failed hs hc hsocket,
    hran.keeps_proved hs hc, hran.keeps_loggedIn hs hc, fun pre e post hsplit => ?_⟩, hstream'⟩
  · rw [hran.next]
    rcases hran.mem_log.mp he with he | rfl
    · exact hs.known e he
    · exact hs.lt_next hc
  · rcases hran.mem_log.mp he with he | rfl
    · exact hs.valid e he
    · exact hlen
  · by_cases hj : j = i
    · exact hj ▸ ⟨rest, hstream'⟩
    · rw [callsOf_ne hran.log hj, hran.received]
      exact hs.reads j
  · refine Passed.mono (congrFun hran.challenge _) ?_
    rw [hran.log] at hsplit
    rcases append_singleton_cases hsplit with ⟨rfl, rfl⟩ | ⟨post', hsplit⟩
    · exact hran.passed hs hc hsocket
    · exact hs.past pre e post' hsplit

end

end Server

end Quals2017.Hackermud
