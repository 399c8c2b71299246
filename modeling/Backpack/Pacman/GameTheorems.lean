import Backpack.Pacman.Game

/-!
# What a tick does

The loops of `next` change one ghost after the other, and none of these changes depends on the
ghosts that had their turn. So there is a value for every ghost after each loop, and with it an
equation for every variable after `next`.
-/

namespace Backpack.Pacman

open Shell

/-! ## Loops over an array -/

/-- A loop that changes entry after entry has changed each by itself. -/
theorem foldl_update {β : Type} (f : ℕ → β → β) {l : List ℕ} (hl : l.Nodup) (g : ℕ → β) (j : ℕ) :
    (l.foldl (fun g i => Function.update g i (f i (g i))) g) j =
      if j ∈ l then f j (g j) else g j := by
  induction l generalizing g with
  | nil => simp
  | cons i l ih =>
    obtain ⟨hi, hl⟩ := List.nodup_cons.mp hl
    rw [List.foldl_cons, ih hl]
    by_cases hj : j = i
    · subst hj
      simp [hi]
    · simp [hj]

/-- The ghosts are the ghouls but the first. -/
theorem mem_active {n i : ℕ} : i ∈ active n ↔ 1 ≤ i ∧ i < n := by
  rw [active, List.mem_range'_1]
  omega

theorem nodup_active (n : ℕ) : (active n).Nodup := List.nodup_range'

theorem placeGhouls_apply (n : ℕ) (g : ℕ → Ghoul) (i : ℕ) :
    placeGhouls n g i = if i < n then ⟨10, 4, false⟩ else g i := by
  have hloop := foldl_update (fun _ _ => (⟨10, 4, false⟩ : Ghoul)) (@List.nodup_range n) g i
  simp only [List.mem_range] at hloop
  exact hloop

section

variable {s : Game} {inp : Input}

/-! ## The moves -/

/-- Everybody after the moves. -/
def movedGhoul (s : Game) (inp : Input) (i : ℕ) : Ghoul :=
  if i = 0 then move s.map (s.ghouls 0) (playerStep inp)
  else if i < s.ghosts then move s.map (s.ghouls i) (ghostStep (inp.rand i))
  else s.ghouls i

/-- Each ghoul makes its own move. -/
theorem moveAll_ghouls (s : Game) (inp : Input) (i : ℕ) :
    (moveAll s inp).ghouls i = movedGhoul s inp i := by
  have hloop := foldl_update (fun i g => move s.map g (ghostStep (inp.rand i)))
    (nodup_active s.ghosts) (Function.update s.ghouls 0 (move s.map (s.ghouls 0) (playerStep inp))) i
  refine hloop.trans ?_
  simp only [mem_active, movedGhoul]
  by_cases hi : i = 0
  · subst hi
    simp
  · have hpos : 1 ≤ i := Nat.one_le_iff_ne_zero.mpr hi
    simp [hi, hpos]

@[simp] theorem home_mk (g : Ghoul) (b : Bool) : Ghoul.home ⟨g.x, g.y, b⟩ = g.home := rfl

/-- A move eats nobody. -/
theorem move_eaten (m : Text) (g : Ghoul) (d : Option (ℤ × ℤ)) : (move m g d).eaten = g.eaten := by
  cases d with
  | none => rfl
  | some d =>
    rw [move]
    split_ifs <;> rfl

/-- So who was eaten does not change. -/
theorem movedGhoul_eaten (s : Game) (inp : Input) (i : ℕ) :
    (movedGhoul s inp i).eaten = (s.ghouls i).eaten := by
  unfold movedGhoul
  split_ifs with h0
  · rw [move_eaten, h0]
  · rw [move_eaten]
  · rfl

/-! ## The cell of the player -/

/-- The place on the screen that the player moves to. -/
def playerPos (s : Game) (inp : Input) : ℤ := (movedGhoul s inp 0).pos

/-- The cell that the player moves to, before it is emptied. -/
def playerCell (s : Game) (inp : Input) : Option Char := charAt s.map (playerPos s inp)

/-- The map after the player has eaten. -/
def eatenMap (s : Game) (inp : Input) : Text :=
  if playerCell s inp = some '.' ∨ playerCell s inp = some '+' then
    s.map.set (playerPos s inp).toNat ' '
  else s.map

/-- The power that is left after the countdown and a `+` that is eaten. -/
def power (s : Game) (inp : Input) : ℤ :=
  (if s.supermode ≠ 0 then s.supermode - 1 else s.supermode) +
    if playerCell s inp = some '+' then 25 else 0

/-- The player eats what lies in its cell, and nothing else changes. -/
theorem eat_moveAll {e : Game}
    (h : eat (moveAll s inp) ((moveAll s inp).ghouls 0).pos = some e) :
    e.ghouls = (moveAll s inp).ghouls ∧ e.ghosts = s.ghosts ∧ e.level = s.level ∧
      e.play = s.play ∧ e.map = eatenMap s inp ∧ e.supermode = power s inp ∧
      e.points = s.points + if playerCell s inp = some '.' then 1 else 0 := by
  have hpos : ((moveAll s inp).ghouls 0).pos = playerPos s inp := by
    rw [moveAll_ghouls, playerPos]
  have hcell : charAt (moveAll s inp).map (playerPos s inp) = playerCell s inp := rfl
  rw [hpos, eat, hcell] at h
  split_ifs at h with hdot hplus
  · -- a dot: only the points change, and they are still an `int`
    simp only [Option.bind_eq_bind, Option.bind_eq_some_iff] at h
    obtain ⟨points, hpoints, h⟩ := h
    obtain rfl := Option.some.inj h
    have hsum : s.points + 1 = points := by
      rw [int] at hpoints
      split_ifs at hpoints
      exact Option.some.inj hpoints
    refine ⟨rfl, rfl, rfl, rfl, ?_, ?_, ?_⟩
    · rw [eatenMap, if_pos (Or.inl hdot)]
      rfl
    · have hplus : playerCell s inp ≠ some '+' := by simp [hdot]
      rw [power, if_neg hplus, add_zero]
      rfl
    · rw [if_pos hdot, hsum]
  · -- a `+`: the power is set, and there is no point
    obtain rfl := Option.some.inj h
    refine ⟨rfl, rfl, rfl, rfl, ?_, ?_, ?_⟩
    · rw [eatenMap, if_pos (Or.inr hplus)]
      rfl
    · rw [power, if_pos hplus]
      rfl
    · rw [if_neg hdot, add_zero]
      rfl
  · obtain rfl := Option.some.inj h
    refine ⟨rfl, rfl, rfl, rfl, ?_, ?_, ?_⟩
    · rw [eatenMap, if_neg (by simp [hdot, hplus])]
      rfl
    · rw [power, if_neg hplus, add_zero]
      rfl
    · rw [if_neg hdot, add_zero]
      rfl

/-! ## The loop that draws the ghosts -/

section

variable {us supermode : ℤ}

/-- The flag of a ghost after its turn. -/
def flagAfter (us supermode : ℤ) (g : Ghoul) : Bool :=
  !g.home && (g.eaten || (g.pos = us && supermode ≠ 0))

/-- A turn changes the flags of one ghost and of the player, and writes to one place. -/
theorem meet_apply (g : ℕ → Ghoul) (t : Screen) {i : ℕ} (hi : i ≠ 0) :
    (∀ j, j ≠ i → j ≠ 0 → (meet us supermode (g, t) i).1 j = g j) ∧
      (meet us supermode (g, t) i).1 i = { g i with eaten := flagAfter us supermode (g i) } ∧
      (meet us supermode (g, t) i).1 0 =
        { g 0 with eaten := (g 0).eaten || ((g i).pos = us && supermode = 0) } ∧
      (meet us supermode (g, t) i).2.writes = t.writes ++ [(g i).pos] := by
  have h0 : (0 : ℕ) ≠ i := Ne.symm hi
  refine ⟨fun j hji hj0 => ?_, ?_, ?_, rfl⟩
  · unfold meet
    dsimp only
    split_ifs <;> simp [Function.update_of_ne, hji, hj0]
  · unfold meet flagAfter
    dsimp only
    by_cases hpos : (g i).pos = us <;> by_cases hmode : supermode = 0 <;>
      cases hhome : (g i).home <;> simp [hpos, hmode, hhome, hi]
  · unfold meet
    dsimp only
    by_cases hpos : (g i).pos = us <;> by_cases hmode : supermode = 0 <;>
      cases hhome : (g i).home <;> simp [hpos, hmode, hhome, hi, h0]

/-- The ghosts meet the player one after another, and none moves. -/
theorem foldl_meet {l : List ℕ} (hl : l.Nodup) (h0 : 0 ∉ l) (g : ℕ → Ghoul) (t : Screen) :
    (∀ j ∉ l, j ≠ 0 → (l.foldl (meet us supermode) (g, t)).1 j = g j) ∧
      (∀ j ∈ l, (l.foldl (meet us supermode) (g, t)).1 j =
        { g j with eaten := flagAfter us supermode (g j) }) ∧
      (l.foldl (meet us supermode) (g, t)).1 0 =
        { g 0 with eaten := (g 0).eaten || l.any fun i => (g i).pos = us && supermode = 0 } ∧
      (l.foldl (meet us supermode) (g, t)).2.writes = t.writes ++ l.map fun i => (g i).pos := by
  induction l generalizing g t with
  | nil => simp
  | cons i l ih =>
    obtain ⟨hi, hl⟩ := List.nodup_cons.mp hl
    obtain ⟨hi0, hl0⟩ : i ≠ 0 ∧ 0 ∉ l := by
      rw [List.mem_cons, not_or] at h0
      exact ⟨Ne.symm h0.1, h0.2⟩
    obtain ⟨hother, hself, hplayer, hwrites⟩ := @meet_apply us supermode g t i hi0
    obtain ⟨ihother, ihmem, ihplayer, ihwrites⟩ :=
      ih hl hl0 (meet us supermode (g, t) i).1 (meet us supermode (g, t) i).2
    -- the turn of `i` leaves the ghosts alone that have their turn later
    have hlater : ∀ j ∈ l, (meet us supermode (g, t) i).1 j = g j := fun j hj =>
      hother j (fun heq => hi (heq ▸ hj)) fun heq => hl0 (heq ▸ hj)
    rw [List.foldl_cons]
    refine ⟨fun j hj hj0 => ?_, fun j hj => ?_, ?_, ?_⟩
    · rw [List.mem_cons, not_or] at hj
      rw [ihother j hj.2 hj0, hother j hj.1 hj0]
    · rcases List.mem_cons.mp hj with rfl | hj
      · rw [ihother j hi hi0, hself]
      · rw [ihmem j hj, hlater j hj]
    · have hany : (l.any fun j => ((meet us supermode (g, t) i).1 j).pos = us && supermode = 0) =
          l.any fun j => (g j).pos = us && supermode = 0 := by
        rw [Bool.eq_iff_iff, List.any_eq_true, List.any_eq_true]
        refine exists_congr fun j => and_congr_right fun hj => ?_
        rw [hlater j hj]
      rw [ihplayer, hany, hplayer, List.any_cons, Bool.or_assoc]
    · have hmap : (l.map fun j => ((meet us supermode (g, t) i).1 j).pos) =
          l.map fun j => (g j).pos := List.map_congr_left fun j hj => by rw [hlater j hj]
      rw [ihwrites, hmap, hwrites]
      simp

end

/-! ## The whole tick -/

/-- The variables after `next`, and the places it looked at and wrote to. -/
structure NextSpec (s : Game) (inp : Input) (t : Tick) : Prop where
  map : t.game.map = eatenMap s inp
  ghosts : t.game.ghosts = s.ghosts
  level : t.game.level = s.level
  play : t.game.play = s.play
  supermode : t.game.supermode = power s inp
  points : t.game.points = s.points + if playerCell s inp = some '.' then 1 else 0
  player : t.game.ghouls 0 = { movedGhoul s inp 0 with
    eaten := (s.ghouls 0).eaten || (active s.ghosts).any fun i =>
      (movedGhoul s inp i).pos = playerPos s inp && power s inp = 0 }
  ghost : ∀ i ∈ active s.ghosts, t.game.ghouls i = { movedGhoul s inp i with
    eaten := flagAfter (playerPos s inp) (power s inp) (movedGhoul s inp i) }
  looks : t.looks = looked (s.ghouls 0) (playerStep inp) ++
    lookedGhosts inp.rand s.ghosts s.ghouls
  writes : t.screen.writes = (List.range (s.map.length + 1)).map Int.ofNat ++
    ((active s.ghosts).map fun i => (movedGhoul s inp i).pos) ++
    if (t.game.ghouls 0).eaten then [] else [playerPos s inp]

/-- One call of `next`, in one statement. -/
theorem next_spec {t : Tick} (h : next s inp = some t) : NextSpec s inp t := by
  simp only [next, Option.bind_eq_bind, Option.bind_eq_some_iff] at h
  obtain ⟨e, he, h⟩ := h
  obtain ⟨hghouls, hghosts, hlevel, hplay, hmap, hpower, hpoints⟩ := eat_moveAll he
  have hpos : ((moveAll s inp).ghouls 0).pos = playerPos s inp := by
    rw [moveAll_ghouls, playerPos]
  have h0 : 0 ∉ active s.ghosts := by simp [mem_active]
  obtain ⟨-, hmem, hplayer, hwrites⟩ := @foldl_meet (playerPos s inp) (power s inp) _
    (nodup_active s.ghosts) h0 (moveAll s inp).ghouls (copyMap (moveAll s inp).map)
  simp only [moveAll_ghouls] at hmem hplayer hwrites
  rw [movedGhoul_eaten] at hplayer
  rw [hpos, hghouls, hghosts, hpower] at h
  obtain rfl := Option.some.inj h
  refine ⟨hmap, rfl, hlevel, hplay, rfl, hpoints, hplayer, hmem, rfl, ?_⟩
  -- the player is drawn last, and only if nothing has caught him
  dsimp only
  split_ifs
  · rw [hwrites, List.append_nil]
    rfl
  · rw [Screen.put, hwrites]
    rfl

/-! ## The main loop -/

/-- The game after `next`, which is left out if `select` fails. -/
inductive AfterNext (s : Game) : Option Input → Game → Prop where
  | failed : AfterNext s none s
  | next (inp : Input) (t : Tick) (h : next s inp = some t) : AfterNext s (some inp) t.game

/-- The check stops a game that is lost, and begins a new level when no dot is left. -/
theorem levelCheck_eq_some_iff {s' : Game} : levelCheck s = some s' ↔
    ('.' ∈ s.map ∧ s' = { s with play := s.play && !(s.ghouls 0).eaten }) ∨
      ('.' ∉ s.map ∧ int (s.level + 1) = some (s.level + 1) ∧
        s' = init { s with
          play := s.play && !(s.ghouls 0).eaten
          ghosts := if s.ghosts < 19 then s.ghosts + 1 else s.ghosts
          level := s.level + 1 }) := by
  have hint : ∀ n m, int n = some m ↔ int n = some n ∧ n = m := by
    intro n m
    rw [int]
    split_ifs <;> simp
  have hplay : (if (s.ghouls 0).eaten then { s with play := false } else s) =
      { s with play := s.play && !(s.ghouls 0).eaten } := by
    cases (s.ghouls 0).eaten <;> simp
  rw [levelCheck, hplay]
  by_cases hdot : '.' ∈ s.map
  · simp [hdot, eq_comm]
  · simp only [hdot, if_false, false_and, false_or, not_false_eq_true, true_and,
      Option.bind_eq_bind, Option.bind_eq_some_iff, Option.some.injEq]
    constructor
    · rintro ⟨level, hlevel, rfl⟩
      obtain ⟨hlevel, rfl⟩ := (hint _ _).mp hlevel
      exact ⟨hlevel, rfl⟩
    · rintro ⟨hlevel, rfl⟩
      exact ⟨_, hlevel, rfl⟩

/-- A tick is a call of `next` and the check of the level. -/
theorem tick_eq_some_iff {inp : Option Input} {s' : Game} :
    tick s inp = some s' ↔ ∃ s₁, AfterNext s inp s₁ ∧ levelCheck s₁ = some s' := by
  cases inp with
  | none =>
    refine ⟨fun h => ⟨s, .failed, h⟩, ?_⟩
    rintro ⟨s₁, hnext, h⟩
    cases hnext
    exact h
  | some inp =>
    rw [tick, Option.bind_eq_some_iff]
    constructor
    · rintro ⟨t, ht, h⟩
      exact ⟨t.game, .next inp t ht, h⟩
    · rintro ⟨s₁, hnext, h⟩
      cases hnext with
      | next _ t ht => exact ⟨t, ht, h⟩

end

/-- What every new game has, and what `next` and the check keep, holds in every run. -/
theorem Run.invariant {P : Game → Prop} (hnew : ∀ s, P (newGame s))
    (hnext : ∀ s inp t, P s → Pacman.next s inp = some t → P t.game)
    (hcheck : ∀ s s', P s → levelCheck s = some s' → P s')
    {h : List (Game × Option Input)} {s : Game} (hrun : Run h s) : P s := by
  induction hrun with
  | start s => exact hnew s
  | @tick h s s' inp hrun hplay htick ih =>
    obtain ⟨s₁, hafter, hlevel⟩ := tick_eq_some_iff.mp htick
    cases hafter with
    | failed => exact hcheck _ _ ih hlevel
    | next i t ht => exact hcheck _ _ (hnext _ i t ih ht) hlevel
  | again hrun hplay ih => exact hnew _

end Backpack.Pacman
