import Backpack.Pacman.GameTheorems

/-!
# Nobody leaves the maze

The border of the maze is closed, and nothing that happens in a game takes a wall away or puts one
up. So whoever stands inside stays inside, over all levels and games, and no move looks at a cell
that is not in the map. Only the copy of the map is too long for the screen: `strcpy` writes a zero
behind its 210 characters.
-/

namespace Backpack.Pacman

open Shell

/-! ## What is expected -/

/-- Somebody inside the border, and not on a wall. -/
def OnFloor (m : Text) (g : Ghoul) : Prop :=
  1 ≤ g.y ∧ g.y ≤ 8 ∧ 1 ≤ g.x ∧ g.x ≤ 18 ∧ cell m g.y g.x ≠ some '*'

instance (m : Text) (g : Ghoul) : Decidable (OnFloor m g) := inferInstanceAs (Decidable (_ ∧ _))

/-- The walls are those of a new map. -/
def SameWalls (m : Text) : Prop := ∀ k : ℕ, m[k]? = some '*' ↔ freshMap[k]? = some '*'

/-- The player and the active ghosts stand in the maze that `init` draws, and the array has room
for them. -/
structure Safe (s : Game) : Prop where
  actors : ∀ i < s.ghosts, OnFloor s.map (s.ghouls i)
  walls : SameWalls s.map
  length : s.map.length = 210
  some_actor : 1 ≤ s.ghosts
  room : s.ghosts ≤ 20

/-- A row and a column of `map[10][21]`. -/
def InMap (c : ℤ × ℤ) : Prop := (0 ≤ c.1 ∧ c.1 < 10) ∧ 0 ≤ c.2 ∧ c.2 < 21

/-- A place in `tmp[210]`. -/
def InScreen (k : ℤ) : Prop := 0 ≤ k ∧ k < 210

/-- Everything `next` looks at and writes to is in its array. -/
def Inside (t : Tick) : Prop := (∀ c ∈ t.looks, InMap c) ∧ ∀ k ∈ t.screen.writes, InScreen k

/-! ## The walls -/

/-- The maze has a wall all around. -/
theorem border_wall : ∀ y ∈ List.range 10, ∀ x ∈ List.range 20,
    (y = 0 ∨ y = 9 ∨ x = 0 ∨ x = 19) → freshMap[21 * y + x]? = some '*' := by decide +kernel

theorem length_freshMap : freshMap.length = 210 := by decide +kernel

/-- Eating changes no wall. -/
theorem charAt_wall_iff {m : Text} (hm : SameWalls m) (k : ℤ) :
    charAt m k = some '*' ↔ charAt freshMap k = some '*' := by
  unfold charAt
  split_ifs
  · exact hm _
  · exact Iff.rfl

/-- So the border is wall in every game. -/
theorem cell_border {m : Text} (hm : SameWalls m) {y x : ℤ} (hy : 0 ≤ y ∧ y ≤ 9)
    (hx : 0 ≤ x ∧ x ≤ 19) (h : y = 0 ∨ y = 9 ∨ x = 0 ∨ x = 19) : cell m y x = some '*' := by
  obtain ⟨y, rfl⟩ := Int.eq_ofNat_of_zero_le hy.1
  obtain ⟨x, rfl⟩ := Int.eq_ofNat_of_zero_le hx.1
  have hwall := border_wall y (List.mem_range.mpr (by omega)) x (List.mem_range.mpr (by omega))
    (by omega)
  rw [cell, charAt_wall_iff hm, charAt, if_pos (by unfold index; omega), ← hwall]
  congr 1

/-! ## A step in the maze -/

/-- A step to a cell beside. -/
def IsStep (d : ℤ × ℤ) : Prop := d = (1, 0) ∨ d = (-1, 0) ∨ d = (0, -1) ∨ d = (0, 1)

/-- The player goes one cell at most. -/
theorem isStep_of_playerStep {inp : Input} : ∀ d ∈ playerStep inp, IsStep d := by
  intro d hd
  unfold playerStep at hd
  split_ifs at hd <;> simp_all [IsStep]

/-- So do the ghosts. -/
theorem isStep_of_ghostStep {r : ℕ} : ∀ d ∈ ghostStep r, IsStep d := by
  intro d hd
  unfold ghostStep at hd
  split_ifs at hd <;> simp_all [IsStep]

section

variable {m : Text} {g : Ghoul} {d : Option (ℤ × ℤ)}

/-- The cells beside somebody are in the map, and none of them is in the last column. -/
theorem beside (hg : OnFloor m g) {e : ℤ × ℤ} (he : IsStep e) :
    (0 ≤ g.y + e.2 ∧ g.y + e.2 ≤ 9) ∧ 0 ≤ g.x + e.1 ∧ g.x + e.1 ≤ 19 := by
  obtain ⟨hy1, hy8, hx1, hx18, -⟩ := hg
  rcases he with rfl | rfl | rfl | rfl <;> dsimp only <;> omega

/-- From the floor, only cells of the maze are looked at. -/
theorem inMap_of_mem_looked (hg : OnFloor m g) (hd : ∀ e ∈ d, IsStep e) :
    ∀ c ∈ looked g d, InMap c := by
  intro c hc
  cases d with
  | none => exact absurd hc List.not_mem_nil
  | some e =>
    obtain ⟨hy, hx⟩ := beside hg (hd e rfl)
    rw [List.mem_singleton.mp hc]
    exact ⟨⟨hy.1, by dsimp only; omega⟩, hx.1, by dsimp only; omega⟩

/-- A step does not lead through a wall, and there are walls on the border. -/
theorem onFloor_move (hm : SameWalls m) (hg : OnFloor m g) (hd : ∀ e ∈ d, IsStep e) :
    OnFloor m (move m g d) := by
  cases d with
  | none => exact hg
  | some e =>
    obtain ⟨hy, hx⟩ := beside hg (hd e rfl)
    rw [move]
    split_ifs with hwall
    · have hnot : ¬ (g.y + e.2 = 0 ∨ g.y + e.2 = 9 ∨ g.x + e.1 = 0 ∨ g.x + e.1 = 19) :=
        fun hborder => hwall (cell_border hm hy hx hborder)
      refine ⟨?_, ?_, ?_, ?_, hwall⟩ <;> dsimp only <;> omega
    · exact hg

theorem inScreen_pos (hg : OnFloor m g) : InScreen g.pos := by
  obtain ⟨hy1, hy8, hx1, hx18, -⟩ := hg
  unfold InScreen Ghoul.pos
  omega

theorem onFloor_congr {m' : Text} {g' : Ghoul} (hm : SameWalls m) (hm' : SameWalls m')
    (hx : g'.x = g.x) (hy : g'.y = g.y) (hg : OnFloor m g) : OnFloor m' g' := by
  have hwall : cell m' g'.y g'.x = some '*' ↔ cell m g.y g.x = some '*' := by
    rw [hx, hy, cell, cell, charAt_wall_iff hm', charAt_wall_iff hm]
  unfold OnFloor at hg ⊢
  rw [Ne, hwall, hx, hy]
  exact hg

end

/-! ## One tick -/

section

variable {s : Game} {inp : Input}

/-- A ghoul on the floor moves to the floor. -/
theorem onFloor_movedGhoul (hs : Safe s) {i : ℕ} (hi : i < s.ghosts) :
    OnFloor s.map (movedGhoul s inp i) := by
  unfold movedGhoul
  split_ifs with h0
  · exact onFloor_move hs.walls (h0 ▸ hs.actors i hi) isStep_of_playerStep
  · exact onFloor_move hs.walls (hs.actors i hi) isStep_of_ghostStep

/-- What is eaten is no wall. -/
theorem sameWalls_eatenMap (hs : Safe s) : SameWalls (eatenMap s inp) := by
  intro k
  unfold eatenMap
  split_ifs with hfood
  · rw [← hs.walls k, List.getElem?_set]
    split_ifs with hk hlen
    · have hcell : s.map[k]? = some '.' ∨ s.map[k]? = some '+' := by
        unfold playerCell charAt at hfood
        split_ifs at hfood
        · rw [← hk]
          exact hfood
        · exact absurd hfood (by simp)
      rcases hcell with hcell | hcell <;> simp [hcell]
    · have hnone : s.map[k]? = none := List.getElem?_eq_none_iff.mpr (by omega)
      simp [hnone]
    · exact Iff.rfl
  · exact hs.walls k

/-- Eating keeps the length of the map. -/
theorem length_eatenMap : (eatenMap s inp).length = s.map.length := by
  unfold eatenMap
  split_ifs <;> simp

/-- A call of `next` keeps all on the floor. -/
theorem Safe.next (hs : Safe s) {t : Tick} (ht : next s inp = some t) : Safe t.game := by
  have hspec := next_spec ht
  have hwalls := @sameWalls_eatenMap s inp hs
  refine ⟨fun i hi => ?_, ?_, ?_, ?_, ?_⟩
  · rw [hspec.ghosts] at hi
    have hfloor := @onFloor_movedGhoul s inp hs i hi
    rw [hspec.map]
    by_cases hzero : i = 0
    · subst hzero
      rw [hspec.player]
      exact onFloor_congr hs.walls hwalls rfl rfl hfloor
    · rw [hspec.ghost i (mem_active.mpr ⟨Nat.one_le_iff_ne_zero.mpr hzero, hi⟩)]
      exact onFloor_congr hs.walls hwalls rfl rfl hfloor
  · rw [hspec.map]
    exact hwalls
  · rw [hspec.map, length_eatenMap, hs.length]
  · rw [hspec.ghosts]
    exact hs.some_actor
  · rw [hspec.ghosts]
    exact hs.room

/-- The cells that `next` looks at are in the map, and so are those where it draws somebody. -/
theorem Safe.looks_draws (hs : Safe s) {t : Tick} (ht : Pacman.next s inp = some t) :
    (∀ c ∈ t.looks, InMap c) ∧ ∃ draws, t.screen.writes =
      (List.range 211).map Int.ofNat ++ draws ∧ ∀ k ∈ draws, InScreen k := by
  have hspec := next_spec ht
  refine ⟨fun c hc => ?_, ((active s.ghosts).map fun i => (movedGhoul s inp i).pos) ++
    (if (t.game.ghouls 0).eaten then [] else [playerPos s inp]), ?_, fun k hk => ?_⟩
  · rw [hspec.looks, List.mem_append] at hc
    rcases hc with hc | hc
    · exact inMap_of_mem_looked (hs.actors 0 hs.some_actor) isStep_of_playerStep c hc
    · obtain ⟨i, hi, hc⟩ := List.mem_flatMap.mp hc
      exact inMap_of_mem_looked (hs.actors i (mem_active.mp hi).2) isStep_of_ghostStep c hc
  · rw [hspec.writes, hs.length, List.append_assoc]
  · rcases List.mem_append.mp hk with hk | hk
    · obtain ⟨i, hi, rfl⟩ := List.mem_map.mp hk
      exact inScreen_pos (onFloor_movedGhoul hs (mem_active.mp hi).2)
    · split_ifs at hk
      · exact absurd hk List.not_mem_nil
      · rw [List.mem_singleton.mp hk]
        exact inScreen_pos (onFloor_movedGhoul hs hs.some_actor)

/-- The zero of `strcpy` is not. -/
theorem Safe.not_inside (hs : Safe s) {t : Tick} (ht : Pacman.next s inp = some t) :
    ¬ Inside t := by
  intro hinside
  obtain ⟨-, draws, hwrites, -⟩ := hs.looks_draws ht
  have hzero : (210 : ℤ) ∈ t.screen.writes := by
    rw [hwrites]
    exact List.mem_append_left _ (List.mem_map.mpr ⟨210, by simp, rfl⟩)
  exact absurd (hinside.2 210 hzero) (by simp [InScreen])

end

/-! ## Whole runs -/

/-- A game begins with all on the floor. -/
theorem safe_init {s : Game} (h1 : 1 ≤ s.ghosts) (h20 : s.ghosts ≤ 20) : Safe (init s) := by
  refine ⟨fun i hi => ?_, fun k => Iff.rfl, length_freshMap, h1, h20⟩
  by_cases hzero : i = 0
  · subst hzero
    have hplace : (init s).ghouls 0 = ⟨10, 8, false⟩ := by
      simp [init, placeGhouls_apply, show 0 < s.ghosts from h1]
    rw [hplace]
    exact (show OnFloor freshMap ⟨10, 8, false⟩ by decide)
  · have hplace : (init s).ghouls i = ⟨10, 4, false⟩ := by
      simp [init, placeGhouls_apply, hzero, show i < s.ghosts from hi]
    rw [hplace]
    exact (show OnFloor freshMap ⟨10, 4, false⟩ by decide)

/-- A new level does so too. -/
theorem Safe.levelCheck {s s' : Game} (hs : Safe s) (h : levelCheck s = some s') : Safe s' := by
  rcases levelCheck_eq_some_iff.mp h with ⟨-, rfl⟩ | ⟨-, -, rfl⟩
  · exact ⟨hs.actors, hs.walls, hs.length, hs.some_actor, hs.room⟩
  · have hsome := hs.some_actor
    have hroom := hs.room
    refine safe_init ?_ ?_ <;> dsimp only <;> split_ifs <;> omega

/-- In every run all stay on the floor. -/
theorem Run.safe {h : List (Game × Option Input)} {s : Game} (hrun : Run h s) : Safe s := by
  refine hrun.invariant (fun s => ?_) (fun s inp t hs ht => hs.next ht)
    fun s s' hs hcheck => hs.levelCheck hcheck
  exact safe_init (show 1 ≤ 3 by decide) (show 3 ≤ 20 by decide)

/-- In every run everybody stays in the maze, the walls stay, and every tick looks at cells of the
map and draws on the screen. But no tick keeps its writes inside the screen: the last one of
`strcpy` is behind it. -/
theorem maze_safe {h : List (Game × Option Input)} {s : Game} (hrun : Run h s) :
    Safe s ∧ ∀ inp t, next s inp = some t → Safe t.game ∧
      ((∀ c ∈ t.looks, InMap c) ∧ ∃ draws, t.screen.writes =
        (List.range 211).map Int.ofNat ++ draws ∧ ∀ k ∈ draws, InScreen k) ∧ ¬ Inside t := by
  have hs := hrun.safe
  exact ⟨hs, fun inp t ht => ⟨hs.next ht, hs.looks_draws ht, hs.not_inside ht⟩⟩

/-! ## The first tick -/

/-- The variables when the program starts. -/
def zeroGame : Game := ⟨[], fun _ => ⟨0, 0, false⟩, 0, 0, false, 0, 0⟩

/-- No key is pressed, and every ghost turns right. -/
def noKey : Input := ⟨false, 0, 0, 0, fun _ => 0⟩

theorem exists_firstTick : ∃ t, next (newGame zeroGame) noKey = some t :=
  Option.isSome_iff_exists.mp (by decide)

theorem maze_safe_first : Run [] (newGame zeroGame) ∧ Safe (newGame zeroGame) ∧
    ∃ t, next (newGame zeroGame) noKey = some t ∧ Safe t.game ∧ ¬ Inside t := by
  obtain ⟨t, ht⟩ := exists_firstTick
  have hsafe := maze_safe (Run.start zeroGame)
  obtain ⟨hgame, -, hinside⟩ := hsafe.2 noKey t ht
  exact ⟨Run.start zeroGame, hsafe.1, t, ht, hgame, hinside⟩

/-- The zero behind the copy of the map. -/
theorem not_maze_safe : ¬ ∀ (h : List (Game × Option Input)) (s : Game), Run h s →
    Safe s ∧ ∀ inp t, next s inp = some t → Inside t := by
  intro hall
  obtain ⟨t, ht⟩ := exists_firstTick
  have hinside := (hall [] _ (Run.start zeroGame)).2 noKey t ht
  exact (Run.start zeroGame).safe.not_inside ht hinside

end Backpack.Pacman
