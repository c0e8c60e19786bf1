import Quals2017.Pegem.PegGame

/-!
# Whole plays of the peg game (`pegem/peg.hsq:132-172`)

* `Fair`: what is true between two rounds of `main`, whatever is typed; `round_fair` keeps it.
* `jumpsMade` counts the rounds in which a peg moves. `left` bounds what can follow and `need` what
  has to, for the name to be asked for.
* **`played`**: a board always comes from the start of its game by jumps, nobody makes more than 221
  of them, and who wins has made 195 at least.
* **`won`**: solutions of the 15 boards, typed one after the other, win. `solutions` are 15 of them,
  all of straight jumps.
-/

namespace Quals2017.Pegem.PegGame

/-! ## Boards in a row -/

/-- A board comes from another one by so many jumps. -/
inductive Plays (board : Board) : Nat → Board → Prop
  | start : Plays board 0 board
  | jump {n : Nat} {board' board'' : Board} :
    Plays board n board' → Jumps board' board'' → Plays board (n + 1) board''

theorem Plays.pegs {board board' : Board} {n : Nat} (h : Plays board n board') :
    pegs board' + n = pegs board := by
  induction h with
  | start => rfl
  | jump _ hjump ih =>
    have hone := hjump.pegs.1
    omega

theorem pegs_initBoard {space : Nat} (h : space < 15) : pegs (initBoard space) = 14 := by
  have hall : ∀ space : Fin 15, pegs (initBoard space) = 14 := by decide +kernel
  exact hall ⟨space, h⟩

/-- A board of a play has a peg. -/
theorem Plays.pegs_pos {board : Board} {space n : Nat} (hspace : space < 15)
    (h : Plays (initBoard space) n board) : 0 < PegGame.pegs board := by
  cases h with
  | start =>
    rw [pegs_initBoard hspace]
    decide
  | jump _ hjump => exact hjump.pegs.2

/-! ## Rounds -/

/-- What is true between two rounds. -/
structure Fair (g : Game) : Prop where
  wins : g.wins < 15
  chances : 1 ≤ g.chances ∧ g.chances ≤ 3
  played : ∃ n, Plays (initBoard g.wins) n g.board ∧ n + pegs g.board = 14

/-- The pegs that are left to take, over all games that can follow. -/
def left (g : Game) : Nat := 13 * (14 - g.wins + (g.chances - 1)) + pegs g.board - 1

/-- The pegs to take before the name is asked for. -/
def need (g : Game) : Nat := 13 * (15 - g.wins) + pegs g.board - 14

/-- 1 where a round moves a peg. -/
def moved (g : Game) : Nat := if (move g.board g.stdin).board = g.board then 0 else 1

/-- The rounds that move a peg. -/
def jumpsMade : Nat → Game → Nat
  | 0, _ => 0
  | n + 1, g => moved g + ((round g).toOption.map (jumpsMade n)).getD 0

theorem fair_start (stdin : List Byte) : Fair (start stdin) where
  wins := Nat.zero_lt_succ 14
  chances := ⟨Nat.le_add_left 1 2, Nat.le_refl 3⟩
  played := ⟨0, .start, (Nat.zero_add _).trans (pegs_initBoard (Nat.zero_lt_succ 14))⟩

variable {g g' : Game}

/-- A board behind a move. -/
theorem Fair.moved (h : Fair g) {board : Board} (hboard : board = (move g.board g.stdin).board) :
    (∃ n, Plays (initBoard g.wins) n board ∧ n + pegs board = 14) ∧ 0 < pegs board ∧
      pegs board + moved g = pegs g.board := by
  obtain ⟨n, hplays, hpegs⟩ := h.played
  rcases move_cases g.board g.stdin with hsame | ⟨-, hjump⟩
  · have hzero : PegGame.moved g = 0 := if_pos hsame
    rw [hboard, hsame, hzero]
    exact ⟨⟨n, hplays, hpegs⟩, hplays.pegs_pos h.wins, rfl⟩
  · have hone := hjump.pegs
    have hne : (move g.board g.stdin).board ≠ g.board := fun heq => by
      rw [heq] at hone
      omega
    have hmoved : PegGame.moved g = 1 := if_neg hne
    rw [hboard, hmoved]
    exact ⟨⟨n + 1, hplays.jump hjump, by omega⟩, hone.2, hone.1⟩

/-- A finished board has as many pegs as the game says. -/
theorem isDone_pegs {board : Board} (h : isDone board ≠ 0) : isDone board = pegs board :=
  isDone_of_stuck fun _ hjump => h (isDone_of_jumps hjump)

theorem fair_initBoard {wins chances : Nat} (hwins : wins < 15) (hpos : 1 ≤ chances)
    (hle : chances ≤ 3) (stdin : List Byte) : Fair ⟨initBoard wins, wins, chances, stdin⟩ where
  wins := hwins
  chances := ⟨hpos, hle⟩
  played := ⟨0, .start, (Nat.zero_add _).trans (pegs_initBoard hwins)⟩

/-- **A round that goes on** leaves a fair game. -/
theorem round_fair (h : Fair g) (hround : round g = .ok g') :
    Fair g' ∧ left g' + moved g ≤ left g ∧ need g ≤ need g' + moved g := by
  obtain ⟨hplayed, hpos, hpegs⟩ := h.moved rfl
  have hwins := h.wins
  have hchances := h.chances
  simp only [round] at hround
  split at hround
  · cases hround
  split at hround
  · rename_i hdone
    have hcount := isDone_pegs hdone
    split at hround
    · rename_i hone
      split at hround
      · cases hround
      · rename_i hlast
        obtain rfl := Except.ok.inj hround
        have hfull := pegs_initBoard (show g.wins + 1 < 15 by omega)
        refine ⟨fair_initBoard (by omega) hchances.1 hchances.2 _, ?_, ?_⟩
        · simp only [left, hfull]
          omega
        · simp only [need, hfull]
          omega
    · split at hround
      · rename_i hchance
        obtain rfl := Except.ok.inj hround
        have hfull := pegs_initBoard hwins
        refine ⟨fair_initBoard hwins (by omega) (by omega) _, ?_, ?_⟩
        · simp only [left, hfull]
          omega
        · simp only [need, hfull]
          omega
      · cases hround
  · obtain rfl := Except.ok.inj hround
    refine ⟨⟨hwins, hchances, hplayed⟩, ?_, ?_⟩
    · simp only [left]
      omega
    · simp only [need]
      omega

/-- **The last win** leaves nothing to take. -/
theorem round_winner (h : Fair g) {rest : List Byte} (hround : round g = .error (.winner rest)) :
    need g ≤ moved g := by
  obtain ⟨hplayed, hpos, hpegs⟩ := h.moved rfl
  simp only [round] at hround
  split at hround
  · cases hround
  split at hround
  · rename_i hdone
    have hcount := isDone_pegs hdone
    split at hround
    · split at hround
      · rename_i hlast
        simp only [need]
        omega
      · cases hround
    · split at hround <;> cases hround
  · cases hround

theorem moved_le_left (h : Fair g) : moved g ≤ left g := by
  obtain ⟨-, hpos, hpegs⟩ := h.moved rfl
  simp only [left]
  omega

/-! ## Runs -/

/-- **What holds of every run.** -/
theorem rounds_fair : ∀ (n : Nat) {g : Game}, Fair g →
    (∀ g', rounds n g = .ok g' → Fair g') ∧ jumpsMade n g ≤ left g ∧
      ∀ rest, rounds n g = .error (.winner rest) → need g ≤ jumpsMade n g
  | 0, g, h => ⟨fun g' hg' => Except.ok.inj hg' ▸ h, Nat.zero_le _, fun _ hend => by cases hend⟩
  | n + 1, g, h => by
    cases hround : round g with
    | error e =>
      have hmade : jumpsMade (n + 1) g = moved g := by
        rw [jumpsMade, hround]
        rfl
      have hrounds : rounds (n + 1) g = .error e := by
        rw [rounds, hround]
        rfl
      rw [hrounds, hmade]
      refine ⟨fun g' hg' => ?_, moved_le_left h, fun rest hend => ?_⟩
      · cases hg'
      · exact round_winner h (hround.trans (congrArg _ (Except.error.inj hend)))
    | ok g' =>
      obtain ⟨hfair, hleft, hneed⟩ := round_fair h hround
      obtain ⟨ihfair, ihleft, ihneed⟩ := rounds_fair n hfair
      have hmade : jumpsMade (n + 1) g = moved g + jumpsMade n g' := by
        rw [jumpsMade, hround]
        rfl
      have hrounds : rounds (n + 1) g = rounds n g' := by
        rw [rounds, hround]
        rfl
      rw [hrounds, hmade]
      refine ⟨ihfair, by omega, fun rest hend => ?_⟩
      have hrest := ihneed rest hend
      omega

/-- **Every play**, whatever is typed: between two rounds the board comes from the start of its
game by as many jumps as pegs are gone, at most 221 jumps are made, and 195 at least before the
name of the winner is asked for. -/
theorem played (n : Nat) (stdin : List Byte) :
    (∀ g, rounds n (start stdin) = .ok g → Fair g) ∧ jumpsMade n (start stdin) ≤ 221 ∧
      ∀ rest, rounds n (start stdin) = .error (.winner rest) → 195 ≤ jumpsMade n (start stdin) := by
  have hstart := pegs_initBoard (Nat.zero_lt_succ 14)
  have hleft : left (start stdin) = 221 := by
    simp only [left, start, hstart]
  have hneed : need (start stdin) = 195 := by
    simp only [need, start, hstart]
  obtain ⟨hfair, hmost, hleast⟩ := rounds_fair n (fair_start stdin)
  rw [hleft] at hmost
  rw [hneed] at hleast
  exact ⟨hfair, hmost, hleast⟩

/-! ## Solutions -/

/-- Jumps one after the other, where each can be made. -/
def follow : Board → List (Fin 15 × Fin 15 × Fin 15) → Option Board
  | board, [] => some board
  | board, t :: ts =>
    if t ∈ table ∧ board.peg t.1 = true ∧ board.peg t.2.1 = true ∧ board.peg t.2.2 = false then
      follow (jump board t.1 t.2.1 t.2.2) ts
    else none

/-- Thirteen jumps from the start of a game. -/
def Solution (space : Nat) (ts : List (Fin 15 × Fin 15 × Fin 15)) : Prop :=
  ts.length = 13 ∧ (follow (initBoard space) ts).isSome

instance (space : Nat) (ts : List (Fin 15 × Fin 15 × Fin 15)) : Decidable (Solution space ts) :=
  inferInstanceAs (Decidable (_ ∧ _))

/-- What the player types for jumps. -/
def typedAll (ts : List (Fin 15 × Fin 15 × Fin 15)) : List Byte := ts.flatMap typed

theorem follow_cons {board board' : Board} {t : Fin 15 × Fin 15 × Fin 15}
    {ts : List (Fin 15 × Fin 15 × Fin 15)} (h : follow board (t :: ts) = some board') :
    (t ∈ table ∧ board.peg t.1 = true ∧ board.peg t.2.1 = true ∧ board.peg t.2.2 = false) ∧
      follow (jump board t.1 t.2.1 t.2.2) ts = some board' := by
  rw [follow] at h
  split at h
  · rename_i hjump
    exact ⟨hjump, h⟩
  · cases h

theorem follow_pegs {board board' : Board} {ts : List (Fin 15 × Fin 15 × Fin 15)}
    (h : follow board ts = some board') : pegs board' + ts.length = pegs board := by
  induction ts generalizing board with
  | nil => rw [Option.some.inj h, List.length_nil, Nat.add_zero]
  | cons t ts ih =>
    obtain ⟨⟨ht, hsrc, hmiddle, hdst⟩, hrest⟩ := follow_cons h
    rw [Board.peg_fin] at hsrc hmiddle hdst
    have hone := (place_jumps ht hsrc hmiddle hdst).pegs.1
    have hcount := ih hrest
    rw [List.length_cons]
    omega

/-- A single peg has nowhere to go. -/
theorem isDone_one {board : Board} (h : pegs board = 1) : isDone board = 1 := by
  rw [isDone_of_stuck, h]
  intro board' hjump
  have htwo := hjump.pegs
  omega

/-- What follows a game that is won. -/
def nextGame (wins chances : Nat) (rest : List Byte) : Except Ending Game :=
  if wins + 1 = 15 then .error (.winner rest)
  else .ok ⟨initBoard (wins + 1), wins + 1, chances, rest⟩

/-- **Jumps that end with one peg** win a game. -/
theorem rounds_follow {board board' : Board} {ts : List (Fin 15 × Fin 15 × Fin 15)}
    (h : follow board ts = some board') (hone : pegs board' = 1) (hne : ts ≠ [])
    (wins chances : Nat) (rest : List Byte) :
    rounds ts.length ⟨board, wins, chances, typedAll ts ++ rest⟩ = nextGame wins chances rest := by
  induction ts generalizing board with
  | nil => exact absurd rfl hne
  | cons t ts ih =>
    obtain ⟨⟨ht, hsrc, hmiddle, hdst⟩, hrest⟩ := follow_cons h
    rw [Board.peg_fin] at hsrc hmiddle hdst
    have hmove : move board (typedAll (t :: ts) ++ rest) =
        ⟨1, jump board t.1 t.2.1 t.2.2, typedAll ts ++ rest, ""⟩ := by
      rw [typedAll, List.flatMap_cons, List.append_assoc]
      exact move_typed ht hsrc hmiddle hdst _
    cases ts with
    | nil =>
      obtain rfl := Option.some.inj hrest
      have hround : round ⟨board, wins, chances, typedAll [t] ++ rest⟩ =
          nextGame wins chances rest := by
        simp only [round, hmove, isDone_one hone, nextGame]
        rfl
      rw [List.length_singleton, rounds, hround, nextGame]
      split <;> rfl
    | cons t' ts =>
      obtain ⟨⟨ht', hsrc', hmiddle', hdst'⟩, -⟩ := follow_cons hrest
      rw [Board.peg_fin] at hsrc' hmiddle' hdst'
      have hdone := isDone_of_jumps (place_jumps ht' hsrc' hmiddle' hdst')
      have hround : round ⟨board, wins, chances, typedAll (t :: t' :: ts) ++ rest⟩ =
          .ok ⟨jump board t.1 t.2.1 t.2.2, wins, chances, typedAll (t' :: ts) ++ rest⟩ := by
        simp only [round, hmove, hdone]
        rfl
      rw [List.length_cons, rounds, hround]
      exact ih hrest (List.cons_ne_nil _ _)

theorem rounds_add (a b : Nat) (g : Game) : rounds (a + b) g = (rounds a g).bind (rounds b) := by
  induction a generalizing g with
  | zero => rw [Nat.zero_add]; rfl
  | succ a ih =>
    rw [Nat.add_right_comm, rounds, rounds]
    cases round g with
    | error e => rfl
    | ok g' => exact ih g'

/-- The last so many games. -/
theorem rounds_solutions {sols : Nat → List (Fin 15 × Fin 15 × Fin 15)}
    (h : ∀ space < 15, Solution space (sols space)) (chances : Nat) (rest : List Byte) :
    ∀ (m wins : Nat), wins + (m + 1) = 15 →
      rounds (13 * (m + 1)) ⟨initBoard wins, wins, chances,
        (List.range' wins (m + 1)).flatMap (fun space => typedAll (sols space)) ++ rest⟩ =
      .error (.winner rest) := by
  have hgame : ∀ wins < 15, ∀ rest, rounds 13 ⟨initBoard wins, wins, chances,
      typedAll (sols wins) ++ rest⟩ = nextGame wins chances rest := fun wins hwins rest => by
    obtain ⟨hlen, hsome⟩ := h wins hwins
    obtain ⟨board, hboard⟩ := Option.isSome_iff_exists.mp hsome
    have hcount := follow_pegs hboard
    rw [pegs_initBoard hwins] at hcount
    have hne : sols wins ≠ [] := fun hnil => by simp [hnil] at hlen
    rw [← hlen]
    exact rounds_follow hboard (by omega) hne wins chances rest
  intro m
  induction m with
  | zero =>
    intro wins hwins
    obtain rfl : wins = 14 := by omega
    rw [List.range'_one, List.flatMap_singleton]
    exact hgame 14 (by decide) rest
  | succ m ih =>
    intro wins hwins
    have hnext := ih (wins + 1) (by omega)
    rw [show 13 * (m + 1 + 1) = 13 + 13 * (m + 1) by omega, rounds_add, List.range'_succ,
      List.flatMap_cons, List.append_assoc, hgame wins (by omega), nextGame, if_neg (by omega)]
    exact hnext

/-- **Solutions win.** Whoever types a solution of every board, in order, is asked for his name. -/
theorem won (sols : Nat → List (Fin 15 × Fin 15 × Fin 15))
    (h : ∀ space < 15, Solution space (sols space)) (rest : List Byte) :
    rounds 195 (start ((List.range 15).flatMap (fun space => typedAll (sols space)) ++ rest)) =
      .error (.winner rest) := by
  rw [List.range_eq_range']
  exact rounds_solutions h 3 rest 14 0 rfl

/-- Solutions, as the places of their jumps in the table. -/
def solutions : List (List Nat) :=
  [[6, 16, 18, 2, 36, 4, 17, 1, 26, 33, 12, 32, 35],
    [14, 0, 16, 2, 18, 36, 4, 17, 33, 36, 24, 5, 23],
    [17, 1, 15, 5, 22, 3, 14, 23, 32, 22, 25, 2, 18],
    [0, 11, 14, 0, 21, 17, 24, 5, 23, 30, 33, 36, 25],
    [22, 26, 2, 4, 17, 1, 18, 32, 8, 33, 12, 32, 35],
    [1, 6, 16, 0, 14, 17, 36, 3, 33, 30, 21, 5, 23],
    [2, 16, 18, 2, 36, 4, 17, 1, 26, 33, 12, 32, 35],
    [4, 17, 21, 5, 26, 2, 18, 35, 32, 22, 24, 17, 1],
    [3, 14, 20, 2, 29, 5, 23, 30, 33, 36, 25, 14, 0],
    [5, 15, 22, 3, 14, 0, 23, 5, 29, 32, 8, 33, 30],
    [7, 0, 16, 2, 18, 36, 4, 17, 33, 36, 24, 5, 23],
    [33, 8, 0, 4, 14, 17, 21, 5, 23, 36, 25, 2, 18],
    [8, 0, 4, 14, 17, 20, 2, 18, 22, 4, 8, 32, 35],
    [32, 8, 0, 4, 14, 17, 20, 2, 18, 22, 24, 5, 23],
    [13, 1, 15, 5, 22, 3, 14, 23, 32, 22, 25, 2, 18]]

/-- The boards can be solved, with straight jumps alone. -/
theorem won_solutions : rounds 195 (start ((List.range 15).flatMap (fun space =>
    typedAll ((solutions.getD space []).map fun i => table.getD i (0, 0, 0))) ++ [])) =
      .error (.winner []) :=
  won (fun space => (solutions.getD space []).map fun i => table.getD i (0, 0, 0))
    (by decide +kernel) []

end Quals2017.Pegem.PegGame
