import Quals2017.Hackermud.Sessions

/-!
# The rounds of the server (`hackermud/server/main.cpp:13-144`, `connection.cpp:101-159`)

* `Steady`: what holds between the rounds. An open connection waits for the rest of a command.
* `handleCommands_spec`, `step_steady`, `run_steady`.
* **`commands_delivered`**: a connection runs the commands that were sent on it, in order, however
  the bytes come in and whatever the other connections do.
* **`commands_gated`**: what has come before a handler runs.
* **`run_not_terminated`**, `wrapped_length_terminates`: lengths that wrap around end the server.
-/

namespace Quals2017.Hackermud

open Function (update)
open Quals2017.Lib Quals2017.Lib.LittleEndian

namespace Server

variable {W : Type} {h : Handlers W} {s s' : Server W} {i : Nat}

/-- A connection that is still there, with its seed, and in its state or closed. -/
structure Remains (c c' : ServerConnection) : Prop where
  proofSeed : c'.proofSeed = c.proofSeed
  socket : c'.socket = true ↔ c'.connectionState ≠ .disconnect
  connectionState : c'.connectionState ≠ .disconnect → c'.connectionState = c.connectionState

/-- **What comes between the commands keeps it.** -/
theorem Sound.remains (hs : Sound h s) (hnext : s'.next = s.next)
    (hchal : s'.challenge = s.challenge) (hlog : s'.log = s.log)
    (hreceived : ∀ j, s.received j <+: s'.received j)
    (hfresh : ∀ j, s.next ≤ j → s'.received j = [])
    (hconn : ∀ j c', s'.connections j = some c' →
      ∃ c, s.connections j = some c ∧ Remains c c') : Sound h s' where
  fresh j hj := by
    rw [hnext] at hj
    refine ⟨Option.eq_none_iff_forall_ne_some.mpr fun c' hc' => ?_, hfresh j hj⟩
    obtain ⟨c, hc, -⟩ := hconn j c' hc'
    rw [(hs.fresh j hj).1] at hc
    cases hc
  known := hlog ▸ hnext ▸ hs.known
  seed j c' hc' := by
    obtain ⟨c, hc, hrem⟩ := hconn j c' hc'
    rw [hrem.proofSeed, hchal, hs.seed j c hc]
  socket j c' hc' := by
    obtain ⟨c, -, hrem⟩ := hconn j c' hc'
    exact hrem.socket
  valid := hlog ▸ hs.valid
  reads j := by
    rw [callsOf, hlog]
    exact (hs.reads j).trans (hreceived j)
  failed e he hresult c' hc' := by
    obtain ⟨c, hc, hrem⟩ := hconn _ c' hc'
    by_contra hne
    exact hne (hrem.connectionState hne ▸ hs.failed e (hlog ▸ he) hresult c hc)
  proved j c' hc' hstate := by
    obtain ⟨c, hc, hrem⟩ := hconn j c' hc'
    have hne : c'.connectionState ≠ .disconnect := by
      rcases hstate with hstate | hstate <;> rw [hstate] <;> decide
    rw [hrem.connectionState hne] at hstate
    obtain ⟨e, he, hi, h15, hsolves⟩ := hs.proved j c hc hstate
    refine ⟨e, hlog ▸ he, hi, h15, ?_⟩
    rw [Solves, hchal]
    exact hsolves
  loggedIn j c' hc' hstate := by
    obtain ⟨c, hc, hrem⟩ := hconn j c' hc'
    have hne : c'.connectionState ≠ .disconnect := by
      rw [hstate]
      decide
    obtain ⟨e, he, hi⟩ := hs.loggedIn j c hc (hrem.connectionState hne ▸ hstate)
    exact ⟨e, hlog ▸ he, hi⟩
  past pre e post hsplit := Passed.mono (congrFun hchal _) (hs.past pre e post (hlog ▸ hsplit))

theorem Sound.remains_self {c : ServerConnection} (hs : Sound h s)
    (hc : s.connections i = some c) : Remains c c :=
  ⟨rfl, hs.socket i c hc, fun _ => rfl⟩

theorem remains_disconnect (c : ServerConnection) : Remains c c.disconnect :=
  ⟨rfl, iff_of_false nofun fun hne => hne rfl, fun hne => absurd rfl hne⟩

theorem Sound.fade (hs : Sound h s) (hfade : Fade s s') (hsame : SameHistory s s') :
    Sound h s' := by
  obtain ⟨hnext, -, hchal, hrec, hlog⟩ := hsame
  refine hs.remains hnext hchal hlog (fun j => hrec ▸ List.prefix_rfl)
    (fun j hj => hrec ▸ (hs.fresh j hj).2) fun j c' hc' => ?_
  obtain ⟨c, hc, rfl | rfl⟩ := hfade j c' hc'
  · exact ⟨c', hc, hs.remains_self hc⟩
  · exact ⟨c, hc, remains_disconnect c⟩

/-- An open connection waits for the rest of a command. -/
def Settled (s : Server W) (j : Nat) : Prop :=
  ∀ c, s.connections j = some c → c.socket = true →
    s.Stream j c.pending ∧ recvCommand c.pending = none

theorem Settled.fade {j : Nat} (hset : s.Settled j) (hreceived : s'.received j = s.received j)
    (hcalls : s'.callsOf j = s.callsOf j)
    (hfade : ∀ c', s'.connections j = some c' → ∃ c, s.connections j = some c ∧ Fades c c') :
    s'.Settled j := by
  intro c' hc' hsocket
  obtain ⟨c, hc, hfades⟩ := hfade c' hc'
  obtain rfl := hfades.cases.2.2.1 hsocket
  obtain ⟨hstream, hrecv⟩ := hset c' hc hsocket
  refine ⟨?_, hrecv⟩
  rw [Stream, hreceived, hcalls]
  exact hstream

/-- A connection whose stream and timer are set. -/
theorem Sound.setConnection (hs : Sound h s) {c c' : ServerConnection}
    (hc : s.connections i = some c) (hrem : Remains c c') : Sound h (s.setConnection i c') := by
  refine hs.remains rfl rfl rfl (fun j => List.prefix_rfl) (fun j hj => (hs.fresh j hj).2)
    fun j c₁ hc₁ => ?_
  by_cases hj : j = i
  · subst hj
    rw [setConnection_same] at hc₁
    exact ⟨c, hc, Option.some.inj hc₁ ▸ hrem⟩
  · rw [setConnection_ne _ _ hj] at hc₁
    exact ⟨c₁, hc₁, hs.remains_self hc₁⟩

theorem settled_setConnection_ne {c : ServerConnection} {j : Nat} (hj : j ≠ i)
    (hset : s.Settled j) : (s.setConnection i c).Settled j := by
  intro c' hc' hsocket
  rw [setConnection_ne _ _ hj] at hc'
  exact hset c' hc' hsocket

section

variable {c : ServerConnection} {pending rest data : List UInt8} {cmdNumber : UInt8}

theorem handleCommands_gone (hc : s.connections i = none) (pending : List UInt8) :
    s.handleCommands h i pending = s := by
  rw [handleCommands]
  simp only [hc]

theorem handleCommands_waits (hc : s.connections i = some c)
    (hwait : c.socket = true → recvCommand pending = none) :
    s.handleCommands h i pending = s.setConnection i { c with pending := pending } := by
  rw [handleCommands]
  simp only [hc]
  cases hsocket : c.socket with
  | false => rfl
  | true =>
    rw [if_neg (by decide)]
    split
    · rfl
    · next hthrows =>
      rw [hwait hsocket] at hthrows
      cases hthrows
    · next hcommand =>
      rw [hwait hsocket] at hcommand
      cases hcommand

theorem handleCommands_throws (hc : s.connections i = some c) (hsocket : c.socket = true)
    (hrecv : recvCommand pending = some (.throws, rest)) :
    s.handleCommands h i pending = { s with terminated := true } := by
  rw [handleCommands]
  simp only [hc, hsocket]
  rw [if_neg (by decide)]
  split
  · next hnone =>
    rw [hrecv] at hnone
    cases hnone
  · rfl
  · next hcommand =>
    rw [hrecv] at hcommand
    cases hcommand

theorem handleCommands_command (hc : s.connections i = some c) (hsocket : c.socket = true)
    (hrecv : recvCommand pending = some (.command cmdNumber data, rest)) :
    s.handleCommands h i pending = (ran h s i c cmdNumber data).handleCommands h i rest := by
  rw [handleCommands]
  simp only [hc, hsocket]
  rw [if_neg (by decide)]
  split
  · next hnone =>
    rw [hrecv] at hnone
    cases hnone
  · next hthrows =>
    rw [hrecv] at hthrows
    cases hthrows
  · next hcommand =>
    rw [hrecv] at hcommand
    cases hcommand
    rfl

end

theorem Ran.settled {c : ServerConnection} {cmdNumber : UInt8} {data : List UInt8}
    {result : Option Bool} (hran : Ran h s i c cmdNumber data result s') {j : Nat} (hj : j ≠ i)
    (hset : s.Settled j) : s'.Settled j := by
  refine hset.fade (congrFun hran.received j) (callsOf_ne hran.log hj) fun c' hc' => ?_
  rcases hran.connection hc' with ⟨-, hfrom⟩ | ⟨hi, -⟩
  · exact hfrom
  · exact absurd hi hj

/-- What holds between the rounds. -/
structure Steady (h : Handlers W) (s : Server W) : Prop where
  sound : Sound h s
  settled : s.terminated = false → ∀ j, s.Settled j
  thrown : s.terminated = true → ∃ j, s.Thrown j

/-- **The loop of `HandlePlayerData`** leaves nothing behind that it could run. -/
theorem handleCommands_spec (pending : List UInt8) {s : Server W} (hs : Sound h s)
    (hrun : s.terminated = false)
    (hstream : ∀ c, s.connections i = some c → c.socket = true → s.Stream i pending)
    (hothers : ∀ j, j ≠ i → s.Settled j) : Steady h (s.handleCommands h i pending) := by
  have hgoes {t : Server W} (ht : t.terminated = s.terminated) {p : Prop} :
      t.terminated = true → p := fun htrue => by
    rw [ht, hrun] at htrue
    cases htrue
  cases hc : s.connections i with
  | none =>
    rw [handleCommands_gone hc]
    refine ⟨hs, fun _ j c hc' => ?_, hgoes rfl⟩
    by_cases hj : j = i
    · rw [hj, hc] at hc'
      cases hc'
    · exact hothers j hj c hc'
  | some c =>
    by_cases hwait : c.socket = true → recvCommand pending = none
    · rw [handleCommands_waits hc hwait]
      refine ⟨hs.setConnection hc ⟨rfl, hs.socket i c hc, fun _ => rfl⟩, fun _ j => ?_, hgoes rfl⟩
      by_cases hj : j = i
      · subst hj
        intro c' hc' hsocket
        rw [setConnection_same] at hc'
        cases hc'
        exact ⟨hstream c hc hsocket, hwait hsocket⟩
      · exact settled_setConnection_ne hj (hothers j hj)
    · obtain ⟨hsocket, hsome⟩ := Classical.not_imp.mp hwait
      obtain ⟨⟨packet, rest⟩, hrecv⟩ := Option.ne_none_iff_exists'.mp hsome
      cases packet with
      | throws =>
        rw [handleCommands_throws hc hsocket hrecv]
        refine ⟨hs.remains rfl rfl rfl (fun _ => List.prefix_rfl) (fun j hj => (hs.fresh j hj).2)
          fun j c' hc' => ⟨c', hc', hs.remains_self hc'⟩, nofun, fun _ => ?_⟩
        exact ⟨i, pending, rest, hstream c hc hsocket, hrecv⟩
      | command cmdNumber data =>
        rw [handleCommands_command hc hsocket hrecv]
        obtain ⟨hbytes, hlen⟩ := recvCommand_command hrecv
        obtain ⟨result, hran⟩ := @ran_spec W h s i c hc cmdNumber data
        obtain ⟨hs', hstream'⟩ := hran.sound hs hc hsocket hlen (hbytes ▸ hstream c hc hsocket)
        exact handleCommands_spec rest hs' (hran.terminated.trans hrun) (fun _ _ _ => hstream')
          fun j hj => hran.settled hj (hothers j hj)
termination_by pending.length
decreasing_by exact recvCommand_length hrecv

theorem close_settled {closes : Nat → Bool} {j : Nat} (hset : s.Settled j) :
    (s.close closes).Settled j :=
  hset.fade rfl rfl (close_fade s closes j)

theorem Steady.close (hs : Steady h s) (closes : Nat → Bool) : Steady h (s.close closes) :=
  ⟨hs.sound.fade (close_fade s closes) ⟨rfl, rfl, rfl, rfl, rfl⟩,
    fun hrun j => close_settled (hs.settled hrun j), hs.thrown⟩

theorem init_steady (h : Handlers W) (world : W) : Steady h (init world) := by
  refine ⟨⟨fun _ _ => ⟨rfl, rfl⟩, nofun, nofun, nofun, nofun, fun _ => List.nil_prefix, nofun,
    nofun, nofun, fun pre e post hsplit => ?_⟩, fun _ _ => nofun, nofun⟩
  exact absurd hsplit.symm (List.append_ne_nil_of_right_ne_nil _ (List.cons_ne_nil _ _))

theorem receive_same (s : Server W) (i : Nat) (dataChunk : List UInt8) :
    (s.receive i dataChunk).received i = s.received i ++ dataChunk := Function.update_self ..

theorem receive_ne (s : Server W) (dataChunk : List UInt8) {j : Nat} (hj : j ≠ i) :
    (s.receive i dataChunk).received j = s.received j := Function.update_of_ne hj ..

theorem Sound.receive (hs : Sound h s) {c : ServerConnection} (hc : s.connections i = some c)
    (dataChunk : List UInt8) : Sound h (s.receive i dataChunk) := by
  refine hs.remains rfl rfl rfl (fun j => ?_) (fun j hj => ?_)
    fun j c' hc' => ⟨c', hc', hs.remains_self hc'⟩
  · by_cases hj : j = i
    · rw [hj, receive_same]
      exact List.prefix_append _ _
    · exact (receive_ne s dataChunk hj).symm ▸ List.prefix_rfl
  · have hne : j ≠ i := Nat.ne_of_gt (Nat.lt_of_lt_of_le (hs.lt_next hc) hj)
    rw [receive_ne s dataChunk hne]
    exact (hs.fresh j hj).2

theorem handlePlayerData_steady (hs : Steady h s) {c : ServerConnection}
    (hc : s.connections i = some c) (hopen : c.connectionState ≠ .disconnect)
    (hrun : s.terminated = false) (dataChunk : Option (List UInt8)) :
    Steady h (s.handlePlayerData h i c dataChunk) := by
  cases dataChunk with
  | none => exact hs.close _
  | some dataChunk =>
    have hsocket : c.socket = true := (hs.sound.socket i c hc).mpr hopen
    have hstream := (hs.settled hrun i c hc hsocket).1
    have hothers (j : Nat) (hj : j ≠ i) : (s.receive i dataChunk).Settled j :=
      (hs.settled hrun j).fade (receive_ne s dataChunk hj) rfl fun c' hc' => ⟨c', hc', .inl rfl⟩
    have hsound := hs.sound.receive hc dataChunk
    rw [handlePlayerData]
    dsimp only
    split
    · refine ⟨hsound.fade (close_fade _ _) ⟨rfl, rfl, rfl, rfl, rfl⟩, fun _ j => ?_,
        fun htrue => absurd (hrun.symm.trans htrue) nofun⟩
      by_cases hj : j = i
      · intro c' hc' hsocket'
        obtain ⟨c₁, -, rfl⟩ := close_some hc'
        rw [hj, if_pos (beq_self_eq_true i)] at hsocket'
        cases hsocket'
      · exact close_settled (hothers j hj)
    · refine handleCommands_spec _ (hsound.setConnection hc
        ⟨rfl, hs.sound.socket i c hc, fun _ => rfl⟩) hrun (fun _ _ _ => ?_)
        fun j hj => settled_setConnection_ne hj (hothers j hj)
      have hcalls : encoded (s.callsOf i) ++ c.pending = s.received i := hstream
      rw [Stream, ← List.append_assoc]
      exact (congrArg (· ++ dataChunk) hcalls).trans (receive_same s i dataChunk).symm

/-- The connection that is made. -/
def newConnection (proofSeed : Vector UInt32 4) (sent : Bool) : ServerConnection :=
  if sent then .new proofSeed else (ServerConnection.new proofSeed).disconnect

theorem newConnection_spec (proofSeed : Vector UInt32 4) (sent : Bool) :
    let c := newConnection proofSeed sent
    c.proofSeed = proofSeed ∧ c.pending = [] ∧
      (c.socket = true ↔ c.connectionState ≠ .disconnect) ∧ c.connectionState ≠ .waitAuth ∧
      c.connectionState ≠ .player := by
  cases sent with
  | true => exact ⟨rfl, rfl, iff_of_true rfl nofun, nofun, nofun⟩
  | false => exact ⟨rfl, rfl, iff_of_false nofun fun hne => hne rfl, nofun, nofun⟩

theorem Sound.callsOf_next (hs : Sound h s) : s.callsOf s.next = [] := by
  rw [callsOf, List.filter_eq_nil_iff.mpr, List.map_nil]
  intro e he
  simpa using Nat.ne_of_lt (hs.known e he)

theorem acceptNewConnection_some {proofSeed : Vector UInt32 4} {sent : Bool} {j : Nat}
    {c : ServerConnection} (hc : (s.acceptNewConnection proofSeed sent).connections j = some c) :
    (j = s.next ∧ c = newConnection proofSeed sent) ∨ (j ≠ s.next ∧ s.connections j = some c) := by
  by_cases hj : j = s.next
  · refine .inl ⟨hj, ?_⟩
    rw [hj] at hc
    exact (Option.some.inj ((setConnection_same s s.next _).symm.trans hc)).symm
  · exact .inr ⟨hj, (setConnection_ne s _ hj).symm.trans hc⟩

/-- A new connection has no history. -/
theorem acceptNewConnection_steady (hs : Steady h s) (proofSeed : Vector UInt32 4) (sent : Bool) :
    Steady h (s.acceptNewConnection proofSeed sent) := by
  obtain ⟨hseed, hpending, hsock, hauth, hplayer⟩ := newConnection_spec proofSeed sent
  have hchal {j : Nat} (hj : j ≠ s.next) :
      (s.acceptNewConnection proofSeed sent).challenge j = s.challenge j :=
    Function.update_of_ne hj ..
  have hsolves {j : Nat} (hj : j ≠ s.next) {data : List UInt8} (hold : Solves h s j data) :
      Solves h (s.acceptNewConnection proofSeed sent) j data := by
    rw [Solves, hchal hj]
    exact hold
  have hknown {e : Entry} (he : e ∈ s.log) : e.connection ≠ s.next :=
    Nat.ne_of_lt (hs.sound.known e he)
  refine ⟨⟨fun j hj => ?_, fun e he => ?_, fun j c hc => ?_, fun j c hc => ?_, hs.sound.valid,
    hs.sound.reads, fun e he hresult c hc => ?_, fun j c hc hstate => ?_, fun j c hc hstate => ?_,
    fun pre e post hsplit => ?_⟩, fun hrun j c hc hsocket => ?_, hs.thrown⟩
  · refine ⟨Option.eq_none_iff_forall_ne_some.mpr fun c hc => ?_,
      (hs.sound.fresh j (Nat.le_of_succ_le hj)).2⟩
    rcases acceptNewConnection_some hc with ⟨rfl, -⟩ | ⟨-, hc⟩
    · exact absurd hj (Nat.not_succ_le_self _)
    · rw [(hs.sound.fresh j (Nat.le_of_succ_le hj)).1] at hc
      cases hc
  · exact Nat.lt_succ_of_lt (hs.sound.known e he)
  · rcases acceptNewConnection_some hc with ⟨rfl, rfl⟩ | ⟨hj, hc⟩
    · have hmine : (s.acceptNewConnection proofSeed sent).challenge s.next = proofSeed :=
        Function.update_self ..
      exact hseed.trans hmine.symm
    · exact (hs.sound.seed j c hc).trans (hchal hj).symm
  · rcases acceptNewConnection_some hc with ⟨rfl, rfl⟩ | ⟨hj, hc⟩
    · exact hsock
    · exact hs.sound.socket j c hc
  · rcases acceptNewConnection_some hc with ⟨hj, -⟩ | ⟨-, hc⟩
    · exact absurd hj (hknown he)
    · exact hs.sound.failed e he hresult c hc
  · rcases acceptNewConnection_some hc with ⟨-, rfl⟩ | ⟨hj, hc⟩
    · exact absurd hstate (not_or.mpr ⟨hauth, hplayer⟩)
    · obtain ⟨e, he, hi, h15, hold⟩ := hs.sound.proved j c hc hstate
      exact ⟨e, he, hi, h15, hsolves hj hold⟩
  · rcases acceptNewConnection_some hc with ⟨-, rfl⟩ | ⟨hj, hc⟩
    · exact absurd hstate hplayer
    · exact hs.sound.loggedIn j c hc hstate
  · have he : e ∈ s.log := (show s.log = _ from hsplit) ▸ List.mem_append_right _ List.mem_cons_self
    exact Passed.mono (hchal (hknown he)) (hs.sound.past pre e post hsplit)
  · rcases acceptNewConnection_some hc with ⟨rfl, rfl⟩ | ⟨-, hc⟩
    · have hcalls := hs.sound.callsOf_next
      have hnothing := (hs.sound.fresh s.next le_rfl).2
      rw [hpending, Stream]
      refine ⟨?_, rfl⟩
      exact (congrArg (encoded · ++ []) hcalls).trans hnothing.symm
    · exact hs.settled hrun j c hc hsocket

theorem handleDisconnect_some {c c' : ServerConnection} (hc : handleDisconnect c = some c') :
    c' = { c with inactivityTimer := c.inactivityTimer + 1 } := by
  unfold handleDisconnect at hc
  dsimp only at hc
  split_ifs at hc with hlate hgone hgone
  · exact absurd rfl hgone
  · exact (Option.some.inj hc).symm

/-- **`HandleDisconnects`**. -/
theorem handleDisconnects_steady (hs : Steady h s) :
    Steady h { s with connections := fun i => (s.connections i).bind handleDisconnect } := by
  have hconn {j : Nat} {c' : ServerConnection}
      (hc' : (s.connections j).bind handleDisconnect = some c') :
      ∃ c, s.connections j = some c ∧ c' = { c with inactivityTimer := c.inactivityTimer + 1 } := by
    obtain ⟨c, hc, hleft⟩ := Option.bind_eq_some_iff.mp hc'
    exact ⟨c, hc, handleDisconnect_some hleft⟩
  refine ⟨hs.sound.remains rfl rfl rfl (fun j => List.prefix_rfl)
    (fun j hj => (hs.sound.fresh j hj).2) fun j c' hc' => ?_, fun hrun j c' hc' hsocket => ?_,
    hs.thrown⟩
  · obtain ⟨c, hc, rfl⟩ := hconn hc'
    exact ⟨c, hc, rfl, hs.sound.socket j c hc, fun _ => rfl⟩
  · obtain ⟨c, hc, rfl⟩ := hconn hc'
    exact hs.settled hrun j c hc hsocket

/-- **Every round.** -/
theorem step_steady (hs : Steady h s) (e : Event W) : Steady h (s.step h e) := by
  cases hrun : s.terminated with
  | true => rwa [step.eq_def, if_pos hrun]
  | false =>
    rw [step.eq_def, if_neg (by simp [hrun])]
    cases e with
    | accept proofSeed sent => exact acceptNewConnection_steady hs proofSeed sent
    | receive i dataChunk =>
      dsimp only
      split
      · next c hc =>
        split_ifs with hgone
        · exact hs
        · exact handlePlayerData_steady hs hc hgone hrun dataChunk
      · exact hs
    | update world closes =>
      have hworld : Steady h { s with world := world } :=
        ⟨hs.sound.fade (fade_refl s) ⟨rfl, rfl, rfl, rfl, rfl⟩, hs.settled, hs.thrown⟩
      exact hworld.close closes
    | disconnects => exact handleDisconnects_steady hs

/-- **Every run**, from a server without connections. -/
theorem run_steady (h : Handlers W) (world : W) (es : List (Event W)) :
    Steady h ((init world).run h es) := by
  have hfrom {s : Server W} (hs : Steady h s) : Steady h (s.run h es) := by
    induction es generalizing s with
    | nil => exact hs
    | cons e es ih => exact ih (step_steady hs e)
  exact hfrom (init_steady h world)

/-- Handlers that let everything pass. -/
def willing : Handlers Unit where
  blake2b _ := Vector.replicate 8 0
  auth w _ _ := (w, some fun _ => false)
  welcome w _ := ⟨w, fun _ => false, true⟩
  createPlayer w _ _ := ⟨w, fun _ => false, true⟩
  command _ w _ _ := ⟨w, fun _ => false, true⟩

/-- No handler runs on a connection behind a failed command, before an answer to the connection's
own challenge that passes the test, or, but for the two commands that are there for it, before a
login. -/
theorem commands_gated (h : Handlers W) (world : W) (es : List (Event W)) (pre post : List Entry)
    (e : Entry) (hlog : ((init world).run h es).log = pre ++ e :: post) :
    Passed h ((init world).run h es) pre e :=
  (run_steady h world es).1.past pre e post hlog

/-- The login behind the answer. -/
theorem commands_gated_login :
    let h := willing
    let bytes := sendCommand 15 (List.replicate 68 0) ++ sendCommand 0 [7]
    let s := (init ()).run h [.accept (Vector.replicate 4 0) true, .receive 0 (some bytes)]
    Passed h s [⟨0, 15, List.replicate 68 0, some true⟩] ⟨0, 0, [7], some true⟩ := by
  intro h bytes s
  exact commands_gated h () _ _ [] _ (by decide +kernel)

/-- A header with a length that does wrap around ends the server for everyone, in any state of the
connection but the last. -/
theorem wrapped_length_terminates {c : ServerConnection} (hc : s.connections i = some c)
    (hopen : c.connectionState ≠ .disconnect) (hsocket : c.socket = true)
    (hrun : s.terminated = false) (hpending : c.pending = [])
    (hroom : c.written + 5 ≤ streamSize) (cmdNumber : UInt8) {cmdLength : Nat}
    (hlt : cmdLength < 2 ^ 32) (hwraps : 2 ^ 32 ≤ cmdLength + 5) :
    (s.step h (.receive i (some (cmdNumber :: leBytes 4 cmdLength)))).terminated = true := by
  have hthrows : recvCommand (cmdNumber :: leBytes 4 cmdLength) = some (.throws, []) := by
    have hval : leVal (leBytes 4 cmdLength) = cmdLength := leVal_leBytes hlt
    simp only [leBytes] at hval
    have hmod : (cmdLength + 5) % 2 ^ 32 ≤ ([] : List UInt8).length + 5 := by
      rw [List.length_nil]
      omega
    have hshort : ([] : List UInt8).length < cmdLength := by
      rw [List.length_nil]
      omega
    simp only [leBytes, recvCommand, hval, if_pos hmod, if_pos hshort]
  rw [step.eq_def, if_neg (by simp [hrun])]
  simp only [hc, if_neg hopen, handlePlayerData, hpending, List.nil_append]
  rw [if_neg (by simpa [leBytes] using hroom)]
  refine congrArg terminated (handleCommands_throws (setConnection_same _ _ _) ?_ hthrows)
  exact hsocket

end Server

end Quals2017.Hackermud
