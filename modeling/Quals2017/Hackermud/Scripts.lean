import Quals2017.Hackermud.World
import Quals2017.Lib.LittleEndian
import Quals2017.Lib.Outcome

/-!
# Running a script (`hackermud/server/script.cpp:44-75,250-325`, `networkcommands.cpp:2377-2396`)

`RunScript` walks the table until a row has the identifier of the command. Nothing else ends the
walk, and the row that ends the table has an identifier of its own.

* What the two costs are is a power in doubles: `getCPUForScript` and `getMemoryForScript` are any
  functions of what the source hands to them.
* A row behind the table is `outside`, a call of a null pointer `nullCall`. `Reply` is what
  `RunScript` returns, or the handler it goes on in. What the room is told is left out.
* `runRow_cases`: what the row that matches does with the player.
* **`nwcRunScript_dispatched_iff`**: the walk ends in the table, and the command is refused or its
  handler called, exactly for the commands that do not reach the row that ends it, or that are too
  expensive there.
-/

namespace Quals2017.Hackermud

open Quals2017.Lib Quals2017.Lib.LittleEndian

variable {Room : Type}

/-- A read behind the table, or a call of a null pointer. -/
inductive Fault
  | outside
  | nullCall
  deriving DecidableEq

/-- The functions of the table. -/
inductive Handler
  | doScriptDelete
  | doScriptCorrupt
  | doScriptRepair
  | doScriptDDOS
  | doScriptSpray
  | doScriptBoost
  | doScriptRestore
  | doScriptExploit
  | doScriptImplant
  deriving DecidableEq

/-- `tScriptTableStruct`. -/
structure ScriptRow where
  szScriptName : String
  scriptID : UInt8
  scriptLevel : BitVec 8
  scriptMemoryNeeded : BitVec 16
  pRunFunc : Option Handler
  deriving DecidableEq

def scriptBoostID : UInt8 := 5

def scriptEndID : UInt8 := 9

/-- The row that ends the table. `NULL` stands where the memory does. -/
def scriptEnd : ScriptRow := ⟨"", scriptEndID, 0, 0, none⟩

/-- `g_runScripts`. -/
def runScripts : List ScriptRow :=
  [⟨"delete", 0, 1, 50, some .doScriptDelete⟩,
   ⟨"corrupt", 1, 1, 30, some .doScriptCorrupt⟩,
   ⟨"repair", 2, 3, 50, some .doScriptRepair⟩,
   ⟨"ddos", 3, 5, 70, some .doScriptDDOS⟩,
   ⟨"spray", 4, 7, 100, some .doScriptSpray⟩,
   ⟨"boost", scriptBoostID, 6, 100, some .doScriptBoost⟩,
   ⟨"restore", 6, 9, 100, some .doScriptRestore⟩,
   ⟨"exploit", 7, 8, 130, some .doScriptExploit⟩,
   ⟨"implant", 8, 13, 170, some .doScriptImplant⟩,
   scriptEnd]

/-- The walk over the rest of the table. -/
def searchScript (scriptID : UInt8) : List ScriptRow → Except Fault ScriptRow
  | [] => .error .outside
  | row :: rows => if row.scriptID = scriptID then .ok row else searchScript scriptID rows

/-- `NWCPlayerRunsScript`. -/
structure RunsScript where
  scriptID : UInt8
  cpuNeeded : BitVec 16
  memoryRequired : BitVec 16
  message : String

/-- What `RunScript` returns after what it tells the player, or the handler it calls. -/
inductive Reply
  | returned (value : Bool) (sFailMessage : Option String)
  | called (pRunFunc : Handler) (told : RunsScript) (pData : List UInt8)

/-- `SetCPU`, `SetMemory`. -/
def Player.setCur (pl : Player Room) (st : Stat) (value : BitVec 16) : Player Room :=
  { pl with cur := Function.update pl.cur st value }

section

variable (getCPUForScript : BitVec 8 → BitVec 16 → BitVec 16)
  (getMemoryForScript : BitVec 8 → BitVec 8 → BitVec 16 → BitVec 16)

/-- `cpuNeeded`. -/
def cpuNeeded (pl : Player Room) (scriptID : UInt8) : BitVec 16 :=
  if scriptID = scriptBoostID then 0 else getCPUForScript pl.codeLevel (pl.max .cpu)

/-- `memoryRequired`. -/
def memoryRequired (pl : Player Room) (row : ScriptRow) : BitVec 16 :=
  getMemoryForScript pl.scriptLevel row.scriptLevel row.scriptMemoryNeeded

/-- The body of the walk, at the row that matches. -/
def runRow (pl : Player Room) (row : ScriptRow) (scriptID : UInt8) (pData : List UInt8) :
    Except Fault (Player Room × Reply) :=
  if pl.scriptLevel < row.scriptLevel then
    .ok (pl, .returned true (some "Insufficient script level to run that script"))
  else
    let cpu := cpuNeeded getCPUForScript pl scriptID
    if pl.cur .cpu < cpu then
      .ok (pl, .returned true (some "Insufficient CPU to run script"))
    else
      let memory := memoryRequired getMemoryForScript pl row
      if pl.cur .memory < memory then
        .ok (pl, .returned true (some "Insufficient Memory to run script"))
      else
        let pl := pl.setCur .cpu (pl.cur .cpu - cpu)
        let pl := pl.setCur .memory (pl.cur .memory - memory)
        match row.pRunFunc with
        | none => .error .nullCall
        | some run => .ok (pl, .called run
            ⟨row.scriptID, cpu, memory, "You run a " ++ row.szScriptName ++ " script"⟩ pData)

/-- `RunScript`, for the player of the connection. -/
def runScript (player : Option (Player Room)) (scriptID : UInt8) (pData : List UInt8) :
    Except Fault (Option (Player Room) × Reply) :=
  match player with
  | none => .ok (none, .returned false none)
  | some pl => do
    let row ← searchScript scriptID runScripts
    let (pl, reply) ← runRow getCPUForScript getMemoryForScript pl row scriptID pData
    .ok (some pl, reply)

/-- `NWCRunScript`. -/
def nwcRunScript (player : Option (Player Room)) (pData : List UInt8) :
    Except Fault (Option (Player Room) × Reply) :=
  match player with
  | none => .ok (none, .returned false none)
  | some pl =>
    if h : pData.length < 5 then .ok (some pl, .returned false none)
    else
      let playerID := BitVec.ofNat 32 (leVal (pData.take 4))
      let scriptID := pData[4]
      if playerID ≠ pl.playerID then .ok (some pl, .returned false none)
      else runScript getCPUForScript getMemoryForScript (some pl) scriptID (pData.drop 5)

end

/-! ## The walk -/

theorem searchScript_ok {scriptID : UInt8} {row : ScriptRow} : ∀ {rows : List ScriptRow},
    searchScript scriptID rows = .ok row → row ∈ rows ∧ row.scriptID = scriptID
  | [], h => nomatch h
  | first :: rows, h => by
    rw [searchScript] at h
    split_ifs at h with hid
    · obtain rfl := Except.ok.inj h
      exact ⟨List.mem_cons_self, hid⟩
    · obtain ⟨hmem, hrow⟩ := searchScript_ok h
      exact ⟨List.mem_cons_of_mem _ hmem, hrow⟩

/-- A walk that no row ends goes on behind the table. -/
theorem searchScript_outside {scriptID : UInt8} : ∀ {rows : List ScriptRow},
    (∀ row ∈ rows, row.scriptID ≠ scriptID) → searchScript scriptID rows = .error .outside
  | [], _ => rfl
  | first :: rows, h => by
    rw [searchScript, if_neg (h first List.mem_cons_self)]
    exact searchScript_outside fun row hrow => h row (List.mem_cons_of_mem _ hrow)

/-- A walk that some row ends. -/
theorem searchScript_found {scriptID : UInt8} : ∀ {rows : List ScriptRow},
    (∃ row ∈ rows, row.scriptID = scriptID) → ∃ row, searchScript scriptID rows = .ok row
  | [], h => by simp at h
  | first :: rows, h => by
    rw [searchScript]
    split_ifs with hid
    · exact ⟨first, rfl⟩
    · refine searchScript_found ?_
      obtain ⟨row, hmem, hrow⟩ := h
      obtain rfl | hmem := List.mem_cons.mp hmem
      · exact absurd hrow hid
      · exact ⟨row, hmem, hrow⟩

/-- The identifiers of the table are those up to the one that ends it. -/
theorem runScripts_scriptID {scriptID : UInt8} :
    (∃ row ∈ runScripts, row.scriptID = scriptID) ↔ scriptID ≤ scriptEndID := by
  simp only [runScripts, scriptEnd, scriptBoostID, scriptEndID, List.mem_cons, List.not_mem_nil,
    or_false, exists_eq_or_imp, exists_eq_left, UInt8.le_iff_toNat_le, ← UInt8.toNat_inj]
  simp only [UInt8.reduceToNat]
  omega

/-- **Every row but the one that ends the table has a handler.** -/
theorem runScripts_handler : ∀ row ∈ runScripts,
    row.scriptID < scriptEndID ∧ row.pRunFunc ≠ none ∨ row = scriptEnd := by
  decide

/-! ## The row that matches -/

section

variable (getCPUForScript : BitVec 8 → BitVec 16 → BitVec 16)
  (getMemoryForScript : BitVec 8 → BitVec 8 → BitVec 16 → BitVec 16)

/-- The script costs more than the player has. -/
def TooExpensive (pl : Player Room) (row : ScriptRow) (scriptID : UInt8) : Prop :=
  pl.cur .cpu < cpuNeeded getCPUForScript pl scriptID ∨
    pl.cur .memory < memoryRequired getMemoryForScript pl row

instance (pl : Player Room) (row : ScriptRow) (scriptID : UInt8) :
    Decidable (TooExpensive getCPUForScript getMemoryForScript pl row scriptID) :=
  inferInstanceAs (Decidable (_ ∨ _))

/-- **The row that matches**: it refuses and leaves the player alone, or it takes the costs and
calls what stands in it. -/
theorem runRow_cases (pl : Player Room) (row : ScriptRow) (scriptID : UInt8)
    (pData : List UInt8) :
    if pl.scriptLevel < row.scriptLevel ∨
        TooExpensive getCPUForScript getMemoryForScript pl row scriptID then
      ∃ message, runRow getCPUForScript getMemoryForScript pl row scriptID pData =
        .ok (pl, .returned true (some message))
    else
      (row.pRunFunc = none →
        runRow getCPUForScript getMemoryForScript pl row scriptID pData = .error .nullCall) ∧
      ∀ run, row.pRunFunc = some run → ∃ pl' told,
        runRow getCPUForScript getMemoryForScript pl row scriptID pData =
          .ok (pl', .called run told pData) := by
  unfold runRow TooExpensive
  by_cases hlevel : pl.scriptLevel < row.scriptLevel
  · rw [if_pos (Or.inl hlevel), if_pos hlevel]
    exact ⟨_, rfl⟩
  by_cases hcpu : pl.cur .cpu < cpuNeeded getCPUForScript pl scriptID
  · rw [if_pos (Or.inr (Or.inl hcpu)), if_neg hlevel, if_pos hcpu]
    exact ⟨_, rfl⟩
  by_cases hmemory : pl.cur .memory < memoryRequired getMemoryForScript pl row
  · rw [if_pos (Or.inr (Or.inr hmemory)), if_neg hlevel, if_neg hcpu, if_pos hmemory]
    exact ⟨_, rfl⟩
  · rw [if_neg (by simp only [hlevel, hcpu, hmemory, or_self, not_false_eq_true]), if_neg hlevel,
      if_neg hcpu, if_neg hmemory]
    constructor
    · intro hnone
      rw [hnone]
    · intro run hrun
      rw [hrun]
      exact ⟨_, _, rfl⟩

/-! ## The command -/

/-- The command is refused and the CPU and the memory stay, or it goes on in the handler of the row
with its identifier. -/
def Dispatched (player player' : Option (Player Room)) (pData : List UInt8) : Reply → Prop
  | .returned _ _ => player'.map Player.cur = player.map Player.cur
  | .called run _ _ => ∃ row ∈ runScripts, pData[4]? = some row.scriptID ∧ row.pRunFunc = some run

/-- A command that gets to the walk: the player sends it, with its own identifier. -/
def Asks (player : Option (Player Room)) (pData : List UInt8) (pl : Player Room)
    (scriptID : UInt8) : Prop :=
  player = some pl ∧ BitVec.ofNat 32 (leVal (pData.take 4)) = pl.playerID ∧
    pData[4]? = some scriptID

/-- A command that does not get to the walk. -/
theorem nwcRunScript_refused {player : Option (Player Room)} {pData : List UInt8}
    (h : ∀ pl scriptID, ¬ Asks player pData pl scriptID) :
    nwcRunScript getCPUForScript getMemoryForScript player pData =
      .ok (player, .returned false none) := by
  unfold nwcRunScript
  cases player with
  | none => rfl
  | some pl =>
    by_cases hlen : pData.length < 5
    · exact dif_pos hlen
    · simp only [dif_neg hlen]
      refine if_pos fun hid => h pl pData[4] ⟨rfl, hid, ?_⟩
      exact List.getElem?_eq_getElem _

/-- A command that gets to the walk. -/
theorem nwcRunScript_asks {player : Option (Player Room)} {pData : List UInt8} {pl : Player Room}
    {scriptID : UInt8} (h : Asks player pData pl scriptID) :
    nwcRunScript getCPUForScript getMemoryForScript player pData =
      runScript getCPUForScript getMemoryForScript (some pl) scriptID (pData.drop 5) := by
  obtain ⟨rfl, hid, hfour⟩ := h
  obtain ⟨hlt, hget⟩ := List.getElem?_eq_some_iff.mp hfour
  unfold nwcRunScript
  simp only [dif_neg (Nat.not_lt.mpr hlt), hget, hid]
  exact if_neg fun hne => hne rfl

theorem runScript_of_row {pl : Player Room} {scriptID : UInt8} {row : ScriptRow}
    {pData : List UInt8} (h : searchScript scriptID runScripts = .ok row) :
    runScript getCPUForScript getMemoryForScript (some pl) scriptID pData =
      (runRow getCPUForScript getMemoryForScript pl row scriptID pData).map
        fun (pl, reply) => (some pl, reply) := by
  simp only [runScript, h, ok_bind]
  cases runRow getCPUForScript getMemoryForScript pl row scriptID pData <;> rfl

/-- **The script of a command**, by the identifier it has. -/
theorem runScript_cases {player : Option (Player Room)} {pData : List UInt8} {pl : Player Room}
    {scriptID : UInt8} (h : Asks player pData pl scriptID) (rest : List UInt8) :
    if scriptID < scriptEndID ∨ scriptID = scriptEndID ∧
        TooExpensive getCPUForScript getMemoryForScript pl scriptEnd scriptID then
      ∃ player' reply, runScript getCPUForScript getMemoryForScript (some pl) scriptID rest =
        .ok (player', reply) ∧ Dispatched player player' pData reply
    else ∃ fault, runScript getCPUForScript getMemoryForScript (some pl) scriptID rest =
      .error fault := by
  obtain ⟨rfl, -, hfour⟩ := h
  by_cases hle : scriptID ≤ scriptEndID
  · obtain ⟨row, hrow⟩ := searchScript_found (runScripts_scriptID.mpr hle)
    obtain ⟨hmem, rfl⟩ := searchScript_ok hrow
    rw [runScript_of_row getCPUForScript getMemoryForScript hrow]
    have hcases := runRow_cases getCPUForScript getMemoryForScript pl row row.scriptID rest
    obtain ⟨hlt, hhandler⟩ | rfl := runScripts_handler row hmem
    · -- a script: refused, or its handler is called
      rw [if_pos (.inl hlt)]
      obtain ⟨run, hrun⟩ := Option.ne_none_iff_exists'.mp hhandler
      split_ifs at hcases with hrefused
      · obtain ⟨message, hret⟩ := hcases
        rw [hret]
        exact ⟨_, _, rfl, rfl⟩
      · obtain ⟨pl', told, hcall⟩ := hcases.2 run hrun
        rw [hcall]
        exact ⟨_, _, rfl, row, hmem, hfour, hrun⟩
    · -- the row that ends the table
      have hlevel : ¬ pl.scriptLevel < scriptEnd.scriptLevel := BitVec.not_lt_zero
      by_cases hexpensive :
          TooExpensive getCPUForScript getMemoryForScript pl scriptEnd scriptEnd.scriptID
      · rw [if_pos (.inr hexpensive)] at hcases
        rw [if_pos (.inr ⟨rfl, hexpensive⟩)]
        obtain ⟨message, hret⟩ := hcases
        rw [hret]
        exact ⟨_, _, rfl, rfl⟩
      · rw [if_neg (not_or.mpr ⟨hlevel, hexpensive⟩)] at hcases
        have hnot : ¬ (scriptEnd.scriptID < scriptEndID ∨ scriptEnd.scriptID = scriptEndID ∧
            TooExpensive getCPUForScript getMemoryForScript pl scriptEnd scriptEnd.scriptID) := by
          rintro (hlt | ⟨-, h⟩)
          · exact absurd hlt (by decide)
          · exact hexpensive h
        rw [if_neg hnot, hcases.1 rfl]
        exact ⟨_, rfl⟩
  · have hlt : ¬ scriptID < scriptEndID := fun hlt => hle (UInt8.le_of_lt hlt)
    have hne : scriptID ≠ scriptEndID := fun heq => hle (UInt8.le_of_eq heq)
    rw [if_neg (by simp only [hlt, hne, false_and, or_self, not_false_eq_true])]
    have hout : searchScript scriptID runScripts = .error .outside :=
      searchScript_outside fun row hmem hrow => hle (runScripts_scriptID.mp ⟨row, hmem, hrow⟩)
    refine ⟨.outside, ?_⟩
    simp only [runScript, hout]
    rfl

/-- **A walk that ends in the table, and a command that is refused or handled**: exactly those
commands that ask for a script of the table, or for the row that ends it without the means. -/
theorem nwcRunScript_dispatched_iff (player : Option (Player Room)) (pData : List UInt8) :
    (∃ player' reply,
      nwcRunScript getCPUForScript getMemoryForScript player pData = .ok (player', reply) ∧
        Dispatched player player' pData reply) ↔
    ∀ pl scriptID, Asks player pData pl scriptID → scriptID < scriptEndID ∨
      scriptID = scriptEndID ∧
        TooExpensive getCPUForScript getMemoryForScript pl scriptEnd scriptID := by
  by_cases hasks : ∃ pl scriptID, Asks player pData pl scriptID
  · obtain ⟨pl, scriptID, h⟩ := hasks
    have hcases := runScript_cases getCPUForScript getMemoryForScript h (pData.drop 5)
    rw [nwcRunScript_asks getCPUForScript getMemoryForScript h]
    have honly : ∀ pl' scriptID', Asks player pData pl' scriptID' → pl' = pl ∧
        scriptID' = scriptID := by
      rintro pl' scriptID' ⟨hpl, -, hfour⟩
      exact ⟨Option.some.inj (hpl.symm.trans h.1), Option.some.inj (hfour.symm.trans h.2.2)⟩
    split_ifs at hcases with hgood
    · refine iff_of_true hcases fun pl' scriptID' h' => ?_
      obtain ⟨rfl, rfl⟩ := honly pl' scriptID' h'
      exact hgood
    · refine iff_of_false ?_ fun hall => hgood (hall pl scriptID h)
      rintro ⟨player', reply, hok, -⟩
      obtain ⟨fault, herror⟩ := hcases
      exact nomatch herror.symm.trans hok
  · have hnone : ∀ pl scriptID, ¬ Asks player pData pl scriptID :=
      fun pl scriptID h => hasks ⟨pl, scriptID, h⟩
    refine iff_of_true ⟨player, _, nwcRunScript_refused _ _ hnone, rfl⟩ fun pl scriptID h => ?_
    exact absurd h (hnone pl scriptID)

end

/-- A player with nothing. -/
def newcomer : Player Unit where
  name := []
  playerID := 1
  connected := true
  room := none
  equip _ := none
  inventory := []
  maxCarryDisk := 0
  maxCarryItems := 0
  curDiskSpace := 0
  curDiskItems := 0
  cur _ := 100
  max _ := 100
  scriptLevel := 1
  codeLevel := 1
  hackLevel := 1

/-- Identifier ten, whatever scripts cost. -/
theorem nwcRunScript_behind : ¬ ∃ (getCPUForScript : BitVec 8 → BitVec 16 → BitVec 16)
    (getMemoryForScript : BitVec 8 → BitVec 8 → BitVec 16 → BitVec 16),
    ∀ (player : Option (Player Unit)) (pData : List UInt8), ∃ player' reply,
      nwcRunScript getCPUForScript getMemoryForScript player pData = .ok (player', reply) ∧
        Dispatched player player' pData reply := by
  rintro ⟨getCPUForScript, getMemoryForScript, h⟩
  obtain ⟨player', reply, hok, -⟩ := h (some newcomer) [1, 0, 0, 0, 10]
  have hout : nwcRunScript getCPUForScript getMemoryForScript (some newcomer) [1, 0, 0, 0, 10] =
      .error .outside := rfl
  exact nomatch hout.symm.trans hok

end Quals2017.Hackermud
