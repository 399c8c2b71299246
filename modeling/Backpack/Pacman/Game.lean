import Backpack.Shell.Text

/-!
# The Pac-Man game

`pacman.c` keeps the maze in an array of characters, row after row, and the player and the ghosts
in the array `ghouls`, the player first. A tick of the main loop waits for a key for a second at
most, calls `next`, which moves everybody and draws the screen, and then looks whether the player
was caught and whether the maze is empty. The numbers that `rand` and `getchar` deliver are inputs
of a tick.
-/

namespace Backpack.Pacman

open Shell

/-! ## The state of the game -/

structure Ghoul where
  x : ℤ
  y : ℤ
  eaten : Bool
deriving DecidableEq

/-- The global variables. `map` are the 210 characters of `map[10][21]`, without the final zero
that `strcpy` puts behind them, and `ghouls` is the array of 20. -/
structure Game where
  map : Text
  ghouls : ℕ → Ghoul
  ghosts : ℕ
  level : ℤ
  play : Bool
  supermode : ℤ
  points : ℤ

/-- The values of an `int`. A sum that is none has no defined value. -/
def int (n : ℤ) : Option ℤ := if -2 ^ 31 ≤ n ∧ n < 2 ^ 31 then some n else none

def rows : List Text :=
  ["********************\n".toList,
   "*+................+*\n".toList,
   "*..***.........***.*\n".toList,
   "*......**...**.....*\n".toList,
   "*..**..*     *..**.*\n".toList,
   "*......*******.....*\n".toList,
   "****............****\n".toList,
   "**...****..****...**\n".toList,
   "*+................+*\n".toList,
   "********************\n".toList]

/-- What `init` draws. -/
def freshMap : Text := rows.flatten

/-- The first loop of `init`. -/
def placeGhouls (ghosts : ℕ) (ghouls : ℕ → Ghoul) : ℕ → Ghoul :=
  (List.range ghosts).foldl (fun g i => Function.update g i ⟨10, 4, false⟩) ghouls

def init (s : Game) : Game :=
  let ghouls := placeGhouls s.ghosts s.ghouls
  { s with
    supermode := 0
    ghouls := Function.update ghouls 0 { ghouls 0 with y := 8 }
    map := freshMap }

/-! ## Moving -/

/-- The place of `map[y][x]` in the memory of `map`. -/
def index (y x : ℤ) : ℤ := 21 * y + x

/-- The character at a place of a text. -/
def charAt (m : Text) (k : ℤ) : Option Char := if 0 ≤ k then m[k.toNat]? else none

/-- `map[y][x]` -/
def cell (m : Text) (y x : ℤ) : Option Char := charAt m (index y x)

/-- A step by `d`, to the right and down, unless there is a wall. -/
def move (m : Text) (g : Ghoul) : Option (ℤ × ℤ) → Ghoul
  | none => g
  | some d =>
    if cell m (g.y + d.2) (g.x + d.1) ≠ some '*' then { g with x := g.x + d.1, y := g.y + d.2 }
    else g

/-- The row and the column that are looked at for this. -/
def looked (g : Ghoul) : Option (ℤ × ℤ) → List (ℤ × ℤ)
  | none => []
  | some d => [(g.y + d.2, g.x + d.1)]

/-- What a tick gets from outside: whether a key can be read, what up to three calls of `getchar`
return, and the value of `rand` for every ghost. -/
structure Input where
  ready : Bool
  ch : ℤ
  ch2 : ℤ
  ch3 : ℤ
  rand : ℕ → ℕ

/-- The arrow keys, which send 27, 91 and a letter. -/
def playerStep (inp : Input) : Option (ℤ × ℤ) :=
  if inp.ready ∧ inp.ch = 27 ∧ inp.ch2 = 91 then
    if inp.ch3 = 67 then some (1, 0)
    else if inp.ch3 = 68 then some (-1, 0)
    else if inp.ch3 = 65 then some (0, -1)
    else if inp.ch3 = 66 then some (0, 1)
    else none
  else none

/-- `(int)(4.0 * rand() / (RAND_MAX + 1.0))` -/
def direction (r : ℕ) : ℕ := 4 * r / 2147483648

def ghostStep (r : ℕ) : Option (ℤ × ℤ) :=
  if direction r = 0 then some (1, 0)
  else if direction r = 2 then some (-1, 0)
  else if direction r = 1 then some (0, -1)
  else if direction r = 3 then some (0, 1)
  else none

/-- The numbers of the active ghosts. -/
def active (ghosts : ℕ) : List ℕ := List.range' 1 (ghosts - 1)

/-- The loop that moves the ghosts. -/
def moveGhosts (m : Text) (rand : ℕ → ℕ) (ghosts : ℕ) (ghouls : ℕ → Ghoul) : ℕ → Ghoul :=
  (active ghosts).foldl
    (fun g i => Function.update g i (move m (g i) (ghostStep (rand i)))) ghouls

/-- The cells that are looked at in this loop. -/
def lookedGhosts (rand : ℕ → ℕ) (ghosts : ℕ) (ghouls : ℕ → Ghoul) : List (ℤ × ℤ) :=
  (active ghosts).flatMap fun i => looked (ghouls i) (ghostStep (rand i))

/-! ## Meeting -/

/-- The place of somebody on the screen. -/
def Ghoul.pos (g : Ghoul) : ℤ := g.x + g.y * 21

/-- The part of the maze where the ghosts come from. -/
def Ghoul.home (g : Ghoul) : Bool := g.y = 4 ∧ 7 < g.x ∧ g.x < 13

/-- The `tmp` of `next`, with the places that were written to. -/
structure Screen where
  tmp : Text
  writes : List ℤ

/-- `tmp[k] = c` -/
def Screen.put (t : Screen) (k : ℤ) (c : Char) : Screen :=
  ⟨if 0 ≤ k then t.tmp.set k.toNat c else t.tmp, t.writes ++ [k]⟩

/-- `strcpy(tmp, map[0])`, which writes a zero after the characters -/
def copyMap (m : Text) : Screen := ⟨m, (List.range (m.length + 1)).map Int.ofNat⟩

/-- A turn of the loop over the ghosts that draws them. -/
def meet (us supermode : ℤ) (st : (ℕ → Ghoul) × Screen) (i : ℕ) : (ℕ → Ghoul) × Screen :=
  let pos := (st.1 i).pos
  let ghouls :=
    if pos = us then
      if supermode = 0 then Function.update st.1 0 { st.1 0 with eaten := true }
      else Function.update st.1 i { st.1 i with eaten := true }
    else st.1
  let ghouls :=
    if (ghouls i).home then Function.update ghouls i { ghouls i with eaten := false } else ghouls
  (ghouls, st.2.put pos (if (ghouls i).eaten then '-' else '~'))

/-! ## A tick -/

/-- The variables after `next`, the cells of `map` it looked at to move somebody, and the
screen. -/
structure Tick where
  game : Game
  looks : List (ℤ × ℤ)
  screen : Screen

/-- What `next` does with the cell that the player is on. -/
def eat (s : Game) (us : ℤ) : Option Game :=
  if charAt s.map us = some '.' then do
    let points ← int (s.points + 1)
    some { s with map := s.map.set us.toNat ' ', points := points }
  else if charAt s.map us = some '+' then
    some { s with map := s.map.set us.toNat ' ', supermode := s.supermode + 25 }
  else some s

/-- The moves and the countdown, up to the copy of the map. -/
def moveAll (s : Game) (inp : Input) : Game :=
  let ghouls := Function.update s.ghouls 0 (move s.map (s.ghouls 0) (playerStep inp))
  { s with
    ghouls := moveGhosts s.map inp.rand s.ghosts ghouls
    supermode := if s.supermode ≠ 0 then s.supermode - 1 else s.supermode }

def next (s : Game) (inp : Input) : Option Tick := do
  let moved := moveAll s inp
  let us := (moved.ghouls 0).pos
  let eaten ← eat moved us
  let met := (active eaten.ghosts).foldl (meet us eaten.supermode) (eaten.ghouls, copyMap moved.map)
  some
    { game := { eaten with ghouls := met.1 }
      looks := looked (s.ghouls 0) (playerStep inp) ++ lookedGhosts inp.rand s.ghosts s.ghouls
      screen := if (met.1 0).eaten then met.2 else met.2.put us 'c' }

/-! ## The main loop -/

/-- The check for the end of the game and for an empty maze. -/
def levelCheck (s : Game) : Option Game :=
  let s := if (s.ghouls 0).eaten then { s with play := false } else s
  if '.' ∈ s.map then some s
  else do
    let level ← int (s.level + 1)
    some (init { s with ghosts := if s.ghosts < 19 then s.ghosts + 1 else s.ghosts, level := level })

/-- The loop body of `main`. Without an input `select` has failed. -/
def tick (s : Game) (inp : Option Input) : Option Game :=
  match inp with
  | none => levelCheck s
  | some i => (next s i).bind fun t => levelCheck t.game

/-- A new game, whatever the arrays hold. -/
def newGame (s : Game) : Game := init { s with play := true, points := 0, ghosts := 3, level := 1 }

/-- A run of the program with the states before its ticks and their inputs, latest first. -/
inductive Run : List (Game × Option Input) → Game → Prop where
  | start (s : Game) : Run [] (newGame s)
  | tick {h : List (Game × Option Input)} {s s' : Game} (inp : Option Input) (hrun : Run h s)
      (hplay : s.play = true) (htick : tick s inp = some s') : Run ((s, inp) :: h) s'
  | again {h : List (Game × Option Input)} {s : Game} (hrun : Run h s) (hplay : s.play = false) :
      Run h (newGame s)

end Backpack.Pacman
