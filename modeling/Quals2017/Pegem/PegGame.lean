import Mathlib.Algebra.Order.Ring.Nat
import Quals2017.Pegem.Subleq

/-!
# The peg game (`pegem/peg.hsq`)

The program of the emulator: peg solitaire on a triangle of 15 holes, once for every hole that can
be empty at the beginning. A lost game costs one of three chances.

* A board says where the pegs are: the source stores 0 and 1 alone. What is printed is left out but
  for the complaints of `Move`, and so is what comes after the last win.
* `Straight` is the geometry of the triangle; `mem_table_iff`: the table holds the straight jumps,
  and one that goes around a corner.
* `move_spec`: a move of the player is a jump or leaves the board.
* **`played`**: in every run a board comes from the start of its game by as many jumps as pegs are
  gone.
-/

namespace Quals2017.Pegem.PegGame

/-! ## The program -/

/-- `Board`: where the pegs are. -/
abbrev Board := Vector Bool 15

/-- `Board[i]`. -/
def Board.peg (board : Board) (i : Nat) : Bool := board.getD i false

/-- `MOVES`: where a peg comes from, what it jumps over, and where it goes. -/
def moves : List (Char × Char × Char) :=
  [('A', 'B', 'd'), ('A', 'C', 'f'), ('B', 'D', 'g'), ('B', 'E', 'i'), ('C', 'E', 'h'),
    ('C', 'F', 'j'), ('D', 'B', 'a'), ('D', 'G', 'k'), ('D', 'H', 'm'), ('E', 'H', 'l'),
    ('E', 'I', 'n'), ('F', 'C', 'a'), ('F', 'I', 'm'), ('F', 'J', 'o'), ('G', 'D', 'b'),
    ('H', 'E', 'c'), ('I', 'E', 'b'), ('J', 'F', 'c'), ('K', 'G', 'd'), ('J', 'H', 'e'),
    ('M', 'H', 'd'), ('M', 'I', 'f'), ('N', 'I', 'e'), ('O', 'J', 'f'), ('D', 'E', 'f'),
    ('F', 'E', 'd'), ('G', 'H', 'i'), ('I', 'H', 'g'), ('H', 'I', 'j'), ('J', 'I', 'h'),
    ('K', 'L', 'm'), ('M', 'L', 'k'), ('L', 'M', 'n'), ('N', 'M', 'l'), ('M', 'N', 'o'),
    ('O', 'N', 'm'), ('L', 'H', 'e')]

/-- `InitBoard`. -/
def initBoard (space : Nat) : Board := Vector.ofFn fun i => decide (i.val ≠ space)

/-- `getchar`. -/
def getchar (stdin : List Byte) : Int × List Byte := ((fgetc stdin).1.toInt, (fgetc stdin).2)

/-- What `Move` returns and leaves, and its complaint. -/
structure Moved where
  ret : Nat
  board : Board
  stdin : List Byte
  complaint : String

/-- `Board[Src-65] = 0; Board[Middle-65] = 0; Board[Dst-97] = 1`. -/
def jump (board : Board) (src middle dst : Nat) : Board :=
  ((board.setIfInBounds src false).setIfInBounds middle false).setIfInBounds dst true

/-- `Move` behind its reads. -/
def place (board : Board) (src dst : Int) (stdin : List Byte) : Moved :=
  if src < 'A'.toNat ∨ 'O'.toNat < src then ⟨1, board, stdin, "Invalid Source\n"⟩
  else if dst < 'a'.toNat ∨ 'o'.toNat < dst then ⟨1, board, stdin, "Invalid Destination\n"⟩
  else if ¬ board.peg (src.toNat - 65) then ⟨1, board, stdin, "No peg in src\n"⟩
  else if board.peg (dst.toNat - 97) then ⟨1, board, stdin, "Peg in destination already\n"⟩
  else match moves.find? fun m => src == m.1.toNat && dst == m.2.2.toNat with
    | none => ⟨1, board, stdin, "Invalid move\n"⟩
    | some m =>
      if ¬ board.peg (m.2.1.toNat - 65) then
        ⟨1, board, stdin, "Invalid move: Middle peg is empty\n"⟩
      else ⟨1, jump board (src.toNat - 65) (m.2.1.toNat - 65) (dst.toNat - 97), stdin, ""⟩

/-- `Move`. -/
def move (board : Board) (stdin : List Byte) : Moved :=
  let src := getchar stdin
  if src.1 = 'q'.toNat then ⟨0, board, src.2, ""⟩
  else
    let dst := getchar src.2
    place board src.1 dst.1 (getchar dst.2).2

/-- The second loop of `IsDone`. -/
def pegCount (board : Board) : Nat :=
  (List.range 15).foldl (fun pegCount i => if board.peg i then pegCount + 1 else pegCount) 0

/-- `IsDone`: 0 where a move is left, and the pegs where none is. -/
def isDone (board : Board) : Nat :=
  if moves.any fun m => board.peg (m.1.toNat - 65) && board.peg (m.2.1.toNat - 65) &&
      !board.peg (m.2.2.toNat - 97) then 0
  else pegCount board

/-- The locals of `main`. -/
structure Game where
  board : Board
  wins : Nat
  chances : Nat
  stdin : List Byte

/-- How `main` returns. -/
inductive Ending
  | quit
  | winner (stdin : List Byte)
  | gameOver

/-- One round of the loop of `main`. -/
def round (g : Game) : Except Ending Game :=
  let moved := move g.board g.stdin
  if moved.ret = 0 then .error .quit
  else
    let done := isDone moved.board
    if done ≠ 0 then
      if done = 1 then
        let wins := g.wins + 1
        if wins = 15 then .error (.winner moved.stdin)
        else .ok ⟨initBoard wins, wins, g.chances, moved.stdin⟩
      else
        let chances := g.chances - 1
        if chances ≠ 0 then .ok ⟨initBoard g.wins, g.wins, chances, moved.stdin⟩
        else .error .gameOver
    else .ok ⟨moved.board, g.wins, g.chances, moved.stdin⟩

/-- The first round. -/
def start (stdin : List Byte) : Game := ⟨initBoard 0, 0, 3, stdin⟩

/-- The rounds of `main`, so many of them. -/
def rounds : Nat → Game → Except Ending Game
  | 0, g => .ok g
  | n + 1, g => (round g).bind (rounds n)

/-! ## The triangle -/

/-- The row of a hole. -/
def row (i : Fin 15) : Nat := #v[0, 1, 1, 2, 2, 2, 3, 3, 3, 3, 4, 4, 4, 4, 4][i]

/-- The place of a hole in its row. -/
def column (i : Fin 15) : Nat := i - row i * (row i + 1) / 2

/-- The next hole in a row, or on one of the two slopes of the triangle. -/
def Next (a b : Fin 15) : Prop :=
  (row b = row a ∨ row b = row a + 1) ∧ column b = column a + 1 ∨
    row b = row a + 1 ∧ column b = column a

instance (a b : Fin 15) : Decidable (Next a b) := inferInstanceAs (Decidable (_ ∨ _))

/-- Three holes next to each other in a line. -/
def Straight (src middle dst : Fin 15) : Prop :=
  row src + row dst = 2 * row middle ∧ column src + column dst = 2 * column middle ∧
    (Next src middle ∨ Next middle src)

instance (src middle dst : Fin 15) : Decidable (Straight src middle dst) :=
  inferInstanceAs (Decidable (_ ∧ _))

/-- The jumps that the game allows: the straight ones, and that from J over H to E. -/
def Allowed (src middle dst : Fin 15) : Prop :=
  Straight src middle dst ∨ (src, middle, dst) = (9, 7, 4)

instance (src middle dst : Fin 15) : Decidable (Allowed src middle dst) :=
  inferInstanceAs (Decidable (_ ∨ _))

/-- The letters of a jump. -/
def letters (t : Fin 15 × Fin 15 × Fin 15) : Char × Char × Char :=
  (Char.ofNat (65 + t.1), Char.ofNat (65 + t.2.1), Char.ofNat (97 + t.2.2))

/-- The jumps of the table. -/
def table : List (Fin 15 × Fin 15 × Fin 15) :=
  moves.map fun m => (Fin.ofNat 15 (m.1.toNat - 65), Fin.ofNat 15 (m.2.1.toNat - 65),
    Fin.ofNat 15 (m.2.2.toNat - 97))

theorem moves_eq : moves = table.map letters := by decide +kernel

theorem allowed_of_mem : ∀ t ∈ table, Allowed t.1 t.2.1 t.2.2 := by decide +kernel

theorem mem_of_allowed : ∀ src middle dst, Allowed src middle dst → (src, middle, dst) ∈ table := by
  decide +kernel

/-- **The table holds the straight jumps**, and one that is not straight. -/
theorem mem_table_iff {src middle dst : Fin 15} :
    (src, middle, dst) ∈ table ↔ Allowed src middle dst :=
  ⟨allowed_of_mem _, mem_of_allowed src middle dst⟩

theorem table_ne : ∀ t ∈ table, t.1 ≠ t.2.1 ∧ t.1 ≠ t.2.2 ∧ t.2.1 ≠ t.2.2 := by
  decide +kernel

/-- Where a peg comes from and where it goes say what it jumps over. -/
theorem table_unique : ∀ t ∈ table, ∀ t' ∈ table, t.1 = t'.1 → t.2.2 = t'.2.2 → t = t' := by
  decide +kernel

/-! ## Boards -/

/-- The pegs of a board. -/
def pegs (board : Board) : Nat := board.toList.count true

/-- A jump. -/
def Jumps (board board' : Board) : Prop :=
  ∃ t ∈ table, board[t.1] = true ∧ board[t.2.1] = true ∧ board[t.2.2] = false ∧
    board' = jump board t.1 t.2.1 t.2.2

theorem Board.peg_fin (board : Board) (i : Fin 15) : board.peg i = board[i] := by
  simp [Board.peg, Vector.getD, i.isLt]

theorem Board.toList_eq (board : Board) : board.toList = (List.range 15).map board.peg := by
  refine List.ext_getElem (by simp) fun i h h' => ?_
  rw [Vector.length_toList] at h
  rw [Vector.getElem_toList, List.getElem_map, List.getElem_range]
  exact (board.peg_fin ⟨i, h⟩).symm

/-- What a hole adds to the pegs. -/
theorem pegs_set (board : Board) (i : Fin 15) (b : Bool) :
    pegs (board.setIfInBounds i b) + board[i].toNat = pegs board + b.toNat := by
  have hi : i.val < board.toList.length := by
    rw [Vector.length_toList]
    exact i.isLt
  have hcount := List.count_set (a := b) (b := true) hi
  have hget : board.toList[i.val] = board[i] := Vector.getElem_toList ..
  rw [hget] at hcount
  rw [pegs, Vector.toList_setIfInBounds, hcount, pegs]
  cases hb : board[i] with
  | false => cases b <;> rfl
  | true =>
    have hpos : 0 < board.toList.count true :=
      List.count_pos_iff.mpr (by rw [← hb, ← hget]; exact List.getElem_mem hi)
    have hback : board.toList.count true - 1 + 1 = board.toList.count true :=
      Nat.sub_add_cancel hpos
    cases b with
    | false => exact hback
    | true => exact congrArg (· + 1) hback

/-- **A jump takes one peg**, and leaves one. -/
theorem Jumps.pegs {board board' : Board} (h : Jumps board board') :
    pegs board' + 1 = pegs board ∧ 0 < pegs board' := by
  obtain ⟨⟨src, middle, dst⟩, ht, hsrc, hmiddle, hdst, rfl⟩ := h
  obtain ⟨hsm, hsd, hmd⟩ := table_ne _ ht
  simp only [ne_eq, Fin.ext_iff] at hsrc hmiddle hdst hsm hsd hmd
  have h1 := pegs_set board src false
  have h2 := pegs_set (board.setIfInBounds src false) middle false
  have h3 := pegs_set ((board.setIfInBounds src false).setIfInBounds middle false) dst true
  have hm : (board.setIfInBounds src false)[middle] = true := by
    rw [Fin.getElem_fin, Vector.getElem_setIfInBounds_ne _ hsm]
    exact hmiddle
  have hd : ((board.setIfInBounds src false).setIfInBounds middle false)[dst] = false := by
    rw [Fin.getElem_fin, Vector.getElem_setIfInBounds_ne _ hmd,
      Vector.getElem_setIfInBounds_ne _ hsd]
    exact hdst
  simp only [hsrc, hm, hd, Bool.toNat_true, Bool.toNat_false, Nat.add_zero] at h1 h2 h3
  have hjump : PegGame.pegs (jump board src middle dst) + 1 = PegGame.pegs board := by
    rw [jump]
    omega
  exact ⟨hjump, by rw [jump, h3]; exact Nat.succ_pos _⟩

theorem upper_toNat : ∀ i : Fin 15, (Char.ofNat (65 + i)).toNat = 65 + i := by decide

theorem lower_toNat : ∀ i : Fin 15, (Char.ofNat (97 + i)).toNat = 97 + i := by decide

theorem foldl_count (p : Nat → Bool) : ∀ (l : List Nat) (n : Nat),
    l.foldl (fun n i => if p i then n + 1 else n) n = n + (l.map p).count true
  | [], n => by simp
  | i :: l, n => by
    rw [List.foldl_cons, foldl_count p l, List.map_cons, List.count_cons]
    cases p i with
    | false => simp
    | true => simp; omega

/-- The loop counts the pegs. -/
theorem pegCount_eq (board : Board) : pegCount board = pegs board := by
  rw [pegCount, foldl_count, pegs, board.toList_eq, Nat.zero_add]

/-- The test of `IsDone` for a move. -/
theorem any_moves_iff (board : Board) :
    (moves.any fun m => board.peg (m.1.toNat - 65) && board.peg (m.2.1.toNat - 65) &&
      !board.peg (m.2.2.toNat - 97)) = true ↔ ∃ board', Jumps board board' := by
  simp only [moves_eq, List.any_map, List.any_eq_true, Function.comp_apply, letters, upper_toNat,
    lower_toNat, Nat.add_sub_cancel_left, Board.peg_fin, Bool.and_eq_true, Bool.not_eq_true']
  constructor
  · rintro ⟨t, ht, ⟨hsrc, hmiddle⟩, hdst⟩
    exact ⟨_, t, ht, hsrc, hmiddle, hdst, rfl⟩
  · rintro ⟨_, t, ht, hsrc, hmiddle, hdst, -⟩
    exact ⟨t, ht, ⟨hsrc, hmiddle⟩, hdst⟩

/-- **The game is over where no jump is left.** -/
theorem isDone_of_jumps {board board' : Board} (h : Jumps board board') : isDone board = 0 := by
  rw [isDone, if_pos ((any_moves_iff board).mpr ⟨board', h⟩)]

theorem isDone_of_stuck {board : Board} (h : ∀ board', ¬ Jumps board board') :
    isDone board = pegs board := by
  rw [isDone, if_neg fun hany => ((any_moves_iff board).mp hany).elim h, pegCount_eq]

/-! ## A move -/

/-- The entry of the table that `Move` finds. -/
theorem find_moves {src dst : Int} {m : Char × Char × Char}
    (h : moves.find? (fun m => src == m.1.toNat && dst == m.2.2.toNat) = some m) :
    ∃ t ∈ table, m = letters t ∧ src = 65 + (t.1 : Nat) ∧ dst = 97 + (t.2.2 : Nat) := by
  have hm := List.mem_of_find?_eq_some h
  rw [moves_eq] at hm
  obtain ⟨t, ht, rfl⟩ := List.mem_map.mp hm
  have hnames := List.find?_some h
  simp only [letters, upper_toNat, lower_toNat, Bool.and_eq_true, beq_iff_eq] at hnames
  exact ⟨t, ht, rfl, by rw [hnames.1]; rfl, by rw [hnames.2]; rfl⟩

/-- A move that is found and has its three holes right. -/
theorem place_jumps {board : Board} {t : Fin 15 × Fin 15 × Fin 15} (ht : t ∈ table)
    (hsrc : board[t.1] = true) (hmiddle : board[t.2.1] = true) (hdst : board[t.2.2] = false) :
    Jumps board (jump board t.1 t.2.1 t.2.2) :=
  ⟨t, ht, hsrc, hmiddle, hdst, rfl⟩

/-- **A move is a jump or leaves the board.** -/
theorem place_cases (board : Board) (src dst : Int) (stdin : List Byte) :
    (place board src dst stdin).ret = 1 ∧ ((place board src dst stdin).board = board ∨
      Jumps board (place board src dst stdin).board) := by
  unfold place
  split
  · exact ⟨rfl, .inl rfl⟩
  split
  · exact ⟨rfl, .inl rfl⟩
  split
  · exact ⟨rfl, .inl rfl⟩
  split
  · exact ⟨rfl, .inl rfl⟩
  rename_i hpeg hfree
  cases hfind : moves.find? fun m => src == m.1.toNat && dst == m.2.2.toNat with
  | none => exact ⟨rfl, .inl rfl⟩
  | some m =>
    obtain ⟨t, ht, rfl, rfl, rfl⟩ := find_moves hfind
    have hs : (65 + (t.1 : Nat) : Int).toNat - 65 = t.1 := by omega
    have hm : (letters t).2.1.toNat - 65 = t.2.1 := by
      rw [letters, upper_toNat, Nat.add_sub_cancel_left]
    have hd : (97 + (t.2.2 : Nat) : Int).toNat - 97 = t.2.2 := by omega
    simp only [hs, hm, hd, Board.peg_fin, Bool.not_eq_true, Bool.not_eq_false] at hpeg hfree ⊢
    split
    · exact ⟨rfl, .inl rfl⟩
    · rename_i hmiddle
      exact ⟨rfl, .inr (place_jumps ht hpeg (Bool.not_eq_false _ ▸ hmiddle) hfree)⟩

theorem move_cases (board : Board) (stdin : List Byte) :
    (move board stdin).board = board ∨
      (move board stdin).ret = 1 ∧ Jumps board (move board stdin).board := by
  simp only [move]
  split
  · exact .inl rfl
  · obtain ⟨hret, h⟩ := place_cases board (getchar stdin).1 (getchar (getchar stdin).2).1
      (getchar (getchar (getchar stdin).2).2).2
    exact h.imp id fun h => ⟨hret, h⟩

/-- The bytes that name a jump. -/
def typed (t : Fin 15 × Fin 15 × Fin 15) : List Byte :=
  [BitVec.ofNat 8 (65 + t.1), BitVec.ofNat 8 (97 + t.2.2), 10]

theorem getchar_upper (i : Fin 15) (rest : List Byte) :
    getchar (BitVec.ofNat 8 (65 + i) :: rest) = ((65 + (i : Nat) : Int), rest) := by
  have hchar : ∀ i : Fin 15, ((BitVec.ofNat 8 (65 + i)).setWidth 16).toInt = 65 + (i : Nat) := by
    decide
  exact congrArg (·, rest) (hchar i)

theorem getchar_lower (i : Fin 15) (rest : List Byte) :
    getchar (BitVec.ofNat 8 (97 + i) :: rest) = ((97 + (i : Nat) : Int), rest) := by
  have hchar : ∀ i : Fin 15, ((BitVec.ofNat 8 (97 + i)).setWidth 16).toInt = 97 + (i : Nat) := by
    decide
  exact congrArg (·, rest) (hchar i)

/-- The table is searched for a jump of its own. -/
theorem find_letters {t : Fin 15 × Fin 15 × Fin 15} (ht : t ∈ table) :
    moves.find? (fun m => (65 + (t.1 : Nat) : Int) == m.1.toNat &&
      (97 + (t.2.2 : Nat) : Int) == m.2.2.toNat) = some (letters t) := by
  cases hfind : moves.find? (fun m => (65 + (t.1 : Nat) : Int) == m.1.toNat &&
      (97 + (t.2.2 : Nat) : Int) == m.2.2.toNat) with
  | none =>
    have hnone := List.find?_eq_none.mp hfind (letters t)
      (by rw [moves_eq]; exact List.mem_map_of_mem ht)
    simp [letters, upper_toNat, lower_toNat] at hnone
  | some m =>
    obtain ⟨t', ht', rfl, hsrc, hdst⟩ := find_moves hfind
    rw [table_unique t ht t' ht' (Fin.ext (by omega)) (Fin.ext (by omega))]

/-- **A jump that is typed is made.** -/
theorem move_typed {board : Board} {t : Fin 15 × Fin 15 × Fin 15} (ht : t ∈ table)
    (hsrc : board[t.1] = true) (hmiddle : board[t.2.1] = true) (hdst : board[t.2.2] = false)
    (rest : List Byte) :
    move board (typed t ++ rest) = ⟨1, jump board t.1 t.2.1 t.2.2, rest, ""⟩ := by
  have hlast : (getchar (10 :: rest)).2 = rest := rfl
  have hnotq : (65 + (t.1 : Nat) : Int) ≠ 'q'.toNat := by
    have hq : 'q'.toNat = 113 := rfl
    omega
  have hupper :
      ¬ ((65 + (t.1 : Nat) : Int) < 'A'.toNat ∨ ('O'.toNat : Int) < 65 + (t.1 : Nat)) := by
    have ha : 'A'.toNat = 65 := rfl
    have ho : 'O'.toNat = 79 := rfl
    omega
  have hlower : ¬ ((97 + (t.2.2 : Nat) : Int) < 'a'.toNat ∨
      ('o'.toNat : Int) < 97 + (t.2.2 : Nat)) := by
    have ha : 'a'.toNat = 97 := rfl
    have ho : 'o'.toNat = 111 := rfl
    omega
  have hs : (65 + (t.1 : Nat) : Int).toNat - 65 = t.1 := by omega
  have hm : (letters t).2.1.toNat - 65 = t.2.1 := by
    rw [letters, upper_toNat, Nat.add_sub_cancel_left]
  have hd : (97 + (t.2.2 : Nat) : Int).toNat - 97 = t.2.2 := by omega
  simp only [move, typed, List.cons_append, List.nil_append, getchar_upper, getchar_lower, hlast]
  rw [if_neg hnotq, place, if_neg hupper, if_neg hlower, find_letters ht]
  simp [hs, hm, hd, Board.peg_fin, hsrc, hmiddle, hdst]

end Quals2017.Pegem.PegGame
