import Backpack.Pacman.Score

/-!
# Meeting a ghost

`next` compares the player with the ghosts when all of them have moved. A ghost that changes
places with the player is not noticed, and the flag of a ghost that was eaten is not looked at, so
that it catches the player like any other one when the power is gone.
-/

namespace Backpack.Pacman

open Shell

/-! ## What is expected -/

/-- Two of them on one cell. -/
def SameCell (g g' : Ghoul) : Prop := g.x = g'.x ∧ g.y = g'.y

instance (g g' : Ghoul) : Decidable (SameCell g g') := inferInstanceAs (Decidable (_ ∧ _))

/-- The ghost `i` stands on the cell of the player after the moves from `s` to `s'`, or they have
changed places. -/
def Meets (s s' : Game) (i : ℕ) : Prop :=
  SameCell (s'.ghouls i) (s'.ghouls 0) ∨
    SameCell (s'.ghouls i) (s.ghouls 0) ∧ SameCell (s'.ghouls 0) (s.ghouls i)

/-- The player is caught exactly by a ghost that is not eaten, without power; a ghost that is eaten
and not at home stands on no cell where it would end the game. -/
structure Captures (s s' : Game) : Prop where
  caught : (s'.ghouls 0).eaten = true ↔ s'.supermode = 0 ∧
    ∃ i ∈ active s.ghosts, (s.ghouls i).eaten = false ∧ Meets s s' i
  harmless : ∀ i ∈ active s.ghosts, (s.ghouls i).eaten = true → (s'.ghouls i).home = false →
    ¬ (s'.supermode = 0 ∧ SameCell (s'.ghouls i) (s'.ghouls 0))

/-- The moves lead the ghost `i` to the cell that the player moves to. -/
def Stands (s : Game) (inp : Input) (i : ℕ) : Prop :=
  SameCell (movedGhoul s inp i) (movedGhoul s inp 0)

instance (s : Game) (inp : Input) (i : ℕ) : Decidable (Stands s inp i) :=
  inferInstanceAs (Decidable (SameCell _ _))

/-- The moves lead the ghost `i` and the player to where the other one was. -/
def Exchanges (s : Game) (inp : Input) (i : ℕ) : Prop :=
  SameCell (movedGhoul s inp i) (s.ghouls 0) ∧ SameCell (movedGhoul s inp 0) (s.ghouls i)

instance (s : Game) (inp : Input) (i : ℕ) : Decidable (Exchanges s inp i) :=
  inferInstanceAs (Decidable (_ ∧ _))

/-- Without power: a live ghost does not change places with the player, unless another one stands
on the player's cell; a ghost that is eaten does not come to stand there, unless it is at home and
a live one meets the player too. -/
structure Fair (s : Game) (inp : Input) : Prop where
  exchanged : (∃ i ∈ active s.ghosts, (s.ghouls i).eaten = false ∧ Exchanges s inp i) →
    ∃ i ∈ active s.ghosts, Stands s inp i
  home : ∀ i ∈ active s.ghosts, (s.ghouls i).eaten = true → Stands s inp i →
    (movedGhoul s inp i).home = true
  live : (∃ i ∈ active s.ghosts, (s.ghouls i).eaten = true ∧ Stands s inp i) →
    ∃ i ∈ active s.ghosts, (s.ghouls i).eaten = false ∧ (Stands s inp i ∨ Exchanges s inp i)

/-! ## One tick -/

/-- In the maze a place on the screen is a cell. -/
theorem sameCell_iff_pos {m : Text} {g g' : Ghoul} (hg : OnFloor m g) (hg' : OnFloor m g') :
    SameCell g g' ↔ g.pos = g'.pos := by
  obtain ⟨-, -, hx1, hx18, -⟩ := hg
  obtain ⟨-, -, hx1', hx18', -⟩ := hg'
  unfold SameCell Ghoul.pos
  omega

section

variable {s : Game} {inp : Input} {t : Tick}

/-- A flag stays until the ghost is at home. -/
theorem eaten_until_home (ht : next s inp = some t) {i : ℕ} (hi : i ∈ active s.ghosts)
    (heaten : (s.ghouls i).eaten = true) :
    (t.game.ghouls i).eaten = !(t.game.ghouls i).home := by
  rw [(next_spec ht).ghost i hi, home_mk]
  simp [flagAfter, movedGhoul_eaten, heaten]

/-- The player is caught when no power is left and a ghost stands on the new cell. -/
theorem caught_iff (hs : Safe s) (ht : next s inp = some t) (hfree : (s.ghouls 0).eaten = false) :
    (t.game.ghouls 0).eaten = true ↔
      power s inp = 0 ∧ ∃ i ∈ active s.ghosts, Stands s inp i := by
  rw [(next_spec ht).player]
  simp only [hfree, Bool.false_or, List.any_eq_true, Bool.and_eq_true, decide_eq_true_eq]
  have hpos : ∀ i ∈ active s.ghosts,
      (Stands s inp i ↔ (movedGhoul s inp i).pos = playerPos s inp) := fun i hi =>
    sameCell_iff_pos (onFloor_movedGhoul hs (mem_active.mp hi).2)
      (onFloor_movedGhoul hs hs.some_actor)
  constructor
  · rintro ⟨i, hi, hsame, hpower⟩
    exact ⟨hpower, i, hi, (hpos i hi).mpr hsame⟩
  · rintro ⟨hpower, i, hi, hstands⟩
    exact ⟨i, hi, (hpos i hi).mp hstands, hpower⟩

/-- A ghost is met on the same cell, or when the two exchange their cells. -/
theorem meets_iff (ht : next s inp = some t) {i : ℕ} (hi : i ∈ active s.ghosts) :
    Meets s t.game i ↔ Stands s inp i ∨ Exchanges s inp i := by
  have hspec := next_spec ht
  rw [Meets, hspec.ghost i hi, hspec.player]
  exact Iff.rfl

theorem captures_next_iff (hs : Safe s) (ht : next s inp = some t)
    (hfree : (s.ghouls 0).eaten = false) :
    Captures s t.game ↔ (power s inp = 0 → Fair s inp) := by
  have hspec := next_spec ht
  have hcaught := caught_iff hs ht hfree
  have hmeets : (∃ i ∈ active s.ghosts, (s.ghouls i).eaten = false ∧ Meets s t.game i) ↔
      ∃ i ∈ active s.ghosts, (s.ghouls i).eaten = false ∧ (Stands s inp i ∨ Exchanges s inp i) :=
    exists_congr fun i => and_congr_right fun hi => and_congr_right fun _ => meets_iff ht hi
  have hstands : ∀ i ∈ active s.ghosts,
      (SameCell (t.game.ghouls i) (t.game.ghouls 0) ↔ Stands s inp i) := by
    intro i hi
    rw [hspec.ghost i hi, hspec.player]
    exact Iff.rfl
  have hhome : ∀ i ∈ active s.ghosts, (t.game.ghouls i).home = (movedGhoul s inp i).home := by
    intro i hi
    rw [hspec.ghost i hi, home_mk]
  constructor
  · rintro ⟨hfirst, hsecond⟩ hpower
    rw [hcaught, hspec.supermode, hmeets] at hfirst
    refine ⟨?_, fun i hi heaten hi' => ?_, ?_⟩
    · rintro ⟨i, hi, hlive, hexchange⟩
      exact (hfirst.mpr ⟨hpower, i, hi, hlive, Or.inr hexchange⟩).2
    · by_contra hnot
      rw [Bool.not_eq_true, ← hhome i hi] at hnot
      refine hsecond i hi heaten hnot ⟨?_, (hstands i hi).mpr hi'⟩
      rw [hspec.supermode, hpower]
    · rintro ⟨i, hi, -, hi'⟩
      exact (hfirst.mp ⟨hpower, i, hi, hi'⟩).2
  · intro hfair
    refine ⟨?_, fun i hi heaten hnot => ?_⟩
    · rw [hcaught, hspec.supermode, hmeets]
      refine and_congr_right fun hpower => ?_
      obtain ⟨hexchanged, -, hlive⟩ := hfair hpower
      constructor
      · rintro ⟨i, hi, hi'⟩
        -- `next` does not ask whether the ghost on the cell of the player has been eaten
        cases heaten : (s.ghouls i).eaten with
        | false => exact ⟨i, hi, heaten, Or.inl hi'⟩
        | true => exact hlive ⟨i, hi, heaten, hi'⟩
      · rintro ⟨i, hi, heaten, hi' | hi'⟩
        · exact ⟨i, hi, hi'⟩
        · exact hexchanged ⟨i, hi, heaten, hi'⟩
    · rintro ⟨hmode, hcell⟩
      rw [hspec.supermode] at hmode
      have hat := (hfair hmode).home i hi heaten ((hstands i hi).mp hcell)
      rw [hhome i hi, hat] at hnot
      exact absurd hnot (by decide)

end

/-! ## A chase -/

/-- Ticks with these inputs, as long as the game is played. -/
def playInputs (s : Game) (inputs : List Input) : Option Game :=
  inputs.foldlM (fun s inp => if s.play then tick s (some inp) else none) s

/-- A run goes on by further inputs. -/
theorem Run.playInputs {h : List (Game × Option Input)} {s s' : Game} (hrun : Run h s)
    {inputs : List Input} (hplayed : playInputs s inputs = some s') : ∃ h', Run h' s' := by
  induction inputs generalizing h s with
  | nil =>
    obtain rfl := Option.some.inj hplayed
    exact ⟨h, hrun⟩
  | cons inp inputs ih =>
    rw [Pacman.playInputs, List.foldlM_cons, Option.bind_eq_bind, Option.bind_eq_some_iff] at hplayed
    obtain ⟨s₁, hstep, hplayed⟩ := hplayed
    split_ifs at hstep with hplay
    exact ih (hrun.tick (some inp) hplay hstep) hplayed

/-- A key that sends 27, 91 and a letter, while the first ghost goes into the direction `a` and the
others turn right. -/
def arrow (key : ℤ) (a : ℕ) : Input :=
  ⟨true, 27, 91, key, fun i => if i = 1 then a * 536870912 else 0⟩

/-- The player goes up and to the right, and the first ghost comes over the wall of its home. -/
def chase : List Input :=
  [arrow 0 1, arrow 65 1, arrow 65 0, arrow 67 0, arrow 67 0, arrow 67 0, arrow 67 3, arrow 65 3]

/-! ## Whole runs -/

/-- Before a tick the player is free, and without power nobody stands on the player's cell. -/
structure Free (s : Game) : Prop where
  player : (s.ghouls 0).eaten = false
  apart : s.supermode = 0 → ∀ i ∈ active s.ghosts, ¬ SameCell (s.ghouls i) (s.ghouls 0)

/-- A game begins with all apart. -/
theorem free_init {s : Game} (h1 : 1 ≤ s.ghosts) : Free (init s) := by
  have hplayer : (init s).ghouls 0 = ⟨10, 8, false⟩ := by
    simp [init, placeGhouls_apply, show 0 < s.ghosts from h1]
  refine ⟨by rw [hplayer], fun _ i hi => ?_⟩
  obtain ⟨hi1, hin⟩ := mem_active.mp hi
  have hghost : (init s).ghouls i = ⟨10, 4, false⟩ := by
    have h0 : i ≠ 0 := by omega
    simp [init, placeGhouls_apply, h0, show i < s.ghosts from hin]
  rw [hplayer, hghost]
  decide

/-- After a level is won, all begin apart again. -/
theorem Free.levelCheck {s s' : Game} (hs : Safe s)
    (hapart : s.supermode = 0 → (s.ghouls 0).eaten = false →
      ∀ i ∈ active s.ghosts, ¬ SameCell (s.ghouls i) (s.ghouls 0))
    (h : levelCheck s = some s') (hplay : s'.play = true) : Free s' := by
  rcases levelCheck_eq_some_iff.mp h with ⟨-, rfl⟩ | ⟨-, -, rfl⟩
  · have hfree : (s.ghouls 0).eaten = false := by
      dsimp only at hplay
      simpa using (Bool.and_eq_true_iff.mp hplay).2
    exact ⟨hfree, fun hmode => hapart hmode hfree⟩
  · refine free_init ?_
    have h1 := hs.some_actor
    dsimp only
    split_ifs <;> omega

/-- While the game is on, the player is free. -/
theorem Run.free {h : List (Game × Option Input)} {s : Game} (hrun : Run h s)
    (hplay : s.play = true) : Free s := by
  induction hrun with
  | start s => exact free_init (show 1 ≤ 3 by decide)
  | @tick h s s' inp hrun hplay₀ htick ih =>
    have hfree := ih hplay₀
    obtain ⟨s₁, hnext, hcheck⟩ := tick_eq_some_iff.mp htick
    cases hnext with
    | failed => exact Free.levelCheck hrun.safe (fun hmode _ => hfree.apart hmode) hcheck hplay
    | next i t ht =>
      refine Free.levelCheck (hrun.safe.next ht) (fun hmode hplayer j hj hcell => ?_) hcheck hplay
      -- whoever stands there without power catches the player
      have hspec := next_spec ht
      rw [hspec.supermode] at hmode
      rw [hspec.ghosts] at hj
      rw [hspec.ghost j hj, hspec.player] at hcell
      have hcaught := (caught_iff hrun.safe ht hfree.player).mpr ⟨hmode, j, hj, hcell⟩
      rw [hplayer] at hcaught
      exact absurd hcaught (by decide)
  | again hrun hplay₀ ih => exact free_init (show 1 ≤ 3 by decide)

/-- What a run holds was a run that was played on. -/
theorem Run.exists_of_mem {h : List (Game × Option Input)} {s : Game} (hrun : Run h s) :
    ∀ e ∈ h, e.1.play = true ∧ ∃ h', Run h' e.1 := by
  induction hrun with
  | start s => exact fun e he => absurd he List.not_mem_nil
  | @tick h s s' inp hrun hplay htick ih =>
    intro e he
    rcases List.mem_cons.mp he with rfl | he
    · exact ⟨hplay, h, hrun⟩
    · exact ih e he
  | again hrun hplay ih => exact ih

/-- Without `next` nothing is decided. -/
theorem captures_self {s : Game} (hfree : Free s) : Captures s s := by
  refine ⟨iff_of_false (by simp [hfree.player]) ?_, fun i hi _ _ hcell => ?_⟩
  · rintro ⟨hmode, i, hi, -, hmeets | ⟨hmeets, -⟩⟩
    · exact hfree.apart hmode i hi hmeets
    · exact hfree.apart hmode i hi hmeets
  · exact hfree.apart hcell.1 i hi hcell.2

/-- In every tick of every run the capture is decided as it should be exactly if there is power or
the moves are fair. -/
theorem captures_iff {h : List (Game × Option Input)} {s : Game} (hrun : Run h s) :
    ∀ e ∈ h, ∀ s₁, AfterNext e.1 e.2 s₁ →
      (Captures e.1 s₁ ↔ ∀ inp, e.2 = some inp → power e.1 inp = 0 → Fair e.1 inp) := by
  intro e he s₁ hnext
  obtain ⟨hplay, h', hrun'⟩ := hrun.exists_of_mem e he
  have hfree := hrun'.free hplay
  generalize hinp : e.2 = inp at hnext
  cases hnext with
  | failed => exact iff_of_true (captures_self hfree) fun inp heq => absurd heq (by simp)
  | next i t ht =>
    rw [captures_next_iff hrun'.safe ht hfree.player]
    exact ⟨fun hfair inp heq => Option.some.inj heq ▸ hfair, fun hfair => hfair i rfl⟩

/-- After the chase the ghost comes down on the player, who is caught. -/
theorem captures_caught : ∃ h s s' t, Run ((s, some (arrow 0 3)) :: h) s' ∧
    next s (arrow 0 3) = some t ∧ Captures s t.game ∧ (t.game.ghouls 0).eaten = true := by
  have hplayed : ((playInputs (newGame zeroGame) chase).any fun s => s.play = true ∧
      (tick s (some (arrow 0 3))).isSome = true ∧ (next s (arrow 0 3)).isSome = true ∧
      power s (arrow 0 3) = 0 ∧ 1 ∈ active s.ghosts ∧ Stands s (arrow 0 3) 1 ∧
        ∀ i ∈ active s.ghosts, (s.ghouls i).eaten = false) = true := by
    decide +kernel
  simp only [Option.any_eq_true, decide_eq_true_eq] at hplayed
  obtain ⟨s, hs, hplay, htick, hnext, hpower, hactive, hstands, hlive⟩ := hplayed
  obtain ⟨s', hs'⟩ := Option.isSome_iff_exists.mp htick
  obtain ⟨t, ht⟩ := Option.isSome_iff_exists.mp hnext
  obtain ⟨h, hrun⟩ := (Run.start zeroGame).playInputs hs
  have hrun' := hrun.tick (some (arrow 0 3)) hplay hs'
  have hcaptures := (captures_iff hrun' _ List.mem_cons_self _ (.next _ t ht)).mpr <| by
    intro inp heq _
    obtain rfl := Option.some.inj heq
    have hnone : ∀ i ∈ active s.ghosts, ¬ (s.ghouls i).eaten = true := by
      intro i hi
      rw [hlive i hi]
      decide
    refine ⟨fun _ => ⟨1, hactive, hstands⟩, fun i hi heaten => absurd heaten (hnone i hi), ?_⟩
    rintro ⟨i, hi, heaten, -⟩
    exact absurd heaten (hnone i hi)
  refine ⟨h, s, s', t, hrun', ht, hcaptures,
    hcaptures.caught.mpr ⟨?_, 1, hactive, hlive 1 hactive, ?_⟩⟩
  · rw [(next_spec ht).supermode, hpower]
  · exact (meets_iff ht hactive).mpr (Or.inl hstands)

/-! ## An exchange -/

/-- After this the ghost is above the player. In the next tick it goes down, and the player goes
up. -/
theorem exists_exchange : ∃ s s' t, playInputs (newGame zeroGame) chase = some s ∧ s.play = true ∧
    tick s (some (arrow 65 3)) = some s' ∧ next s (arrow 65 3) = some t ∧ 1 ∈ active s.ghosts ∧
      s.ghouls 0 = ⟨14, 5, false⟩ ∧ s.ghouls 1 = ⟨14, 4, false⟩ ∧
        t.game.ghouls 0 = ⟨14, 4, false⟩ ∧ t.game.ghouls 1 = ⟨14, 5, false⟩ ∧
          t.game.supermode = 0 := by
  have hplay : ((playInputs (newGame zeroGame) chase).any fun s => s.play = true ∧
      1 ∈ active s.ghosts ∧ s.ghouls 0 = ⟨14, 5, false⟩ ∧ s.ghouls 1 = ⟨14, 4, false⟩ ∧
      ((tick s (some (arrow 65 3))).isSome = true) ∧ ((next s (arrow 65 3)).any fun t =>
        t.game.ghouls 0 = ⟨14, 4, false⟩ ∧ t.game.ghouls 1 = ⟨14, 5, false⟩ ∧
          t.game.supermode = 0) = true) = true := by
    decide +kernel
  simp only [Option.any_eq_true, decide_eq_true_eq] at hplay
  obtain ⟨s, hs, hplay, hactive, hplayer, hghost, htick, t, ht, hplayer', hghost', hmode⟩ := hplay
  obtain ⟨s', hs'⟩ := Option.isSome_iff_exists.mp htick
  exact ⟨s, s', t, hs, hplay, hs', ht, hactive, hplayer, hghost, hplayer', hghost', hmode⟩

theorem not_captures : ¬ ∀ (h : List (Game × Option Input)) (s : Game), Run h s → ∀ e ∈ h,
    ∀ s₁, AfterNext e.1 e.2 s₁ → Captures e.1 s₁ := by
  intro hall
  obtain ⟨s, s', t, hs, hplay, hs', ht, hactive, hplayer, hghost, hplayer', hghost', hmode⟩ :=
    exists_exchange
  obtain ⟨h, hrun⟩ := (Run.start zeroGame).playInputs hs
  have hcaptures := hall _ _ (hrun.tick _ hplay hs') _ List.mem_cons_self _ (.next _ t ht)
  -- the live ghost has changed places with the player, who is not caught
  have hmeets : Meets s t.game 1 := by
    refine Or.inr ⟨?_, ?_⟩
    · rw [hghost', hplayer]
      decide
    · rw [hplayer', hghost]
      decide
  have hcaught := hcaptures.caught.mpr ⟨hmode, 1, hactive, by rw [hghost], hmeets⟩
  rw [hplayer'] at hcaught
  exact absurd hcaught (by decide)

end Backpack.Pacman
