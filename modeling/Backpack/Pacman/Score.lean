import Backpack.Pacman.Maze

/-!
# Points and power

Every dot that disappears from the map is a point, and every power pill is 25 ticks of power. So
the points and the dots that are left add up to the dots of all levels so far, and no more power is
ever in the game than the four pills of a map hold.
-/

namespace Backpack.Pacman

open Shell

/-- The dots of a new map. -/
def freshDots : ℤ := freshMap.count '.'

/-- The points and the power agree with what is left on the map. -/
structure Accounted (s : Game) : Prop where
  points : s.points + s.map.count '.' = s.level * freshDots
  power : 0 ≤ s.supermode
  pills : s.supermode + 25 * s.map.count '+' ≤ 100

/-! ## Eating -/

/-- A cell that is cleared counts once less. -/
theorem count_set {m : Text} {k : ℤ} {c d : Char} (h : charAt m k = some c) (hd : d ≠ ' ') :
    (m.set k.toNat ' ').count d + (if c = d then 1 else 0) = m.count d := by
  unfold charAt at h
  split_ifs at h with hk
  obtain ⟨hlt, hc⟩ := List.getElem?_eq_some_iff.mp h
  have hblank : (' ' == d) = false := by simpa using hd.symm
  rw [List.count_set hlt, hc, hblank]
  by_cases hcd : c = d
  · subst hcd
    have hpos : 0 < m.count c := List.count_pos_iff.mpr (hc ▸ List.getElem_mem hlt)
    simp only [beq_self_eq_true, if_true, Bool.false_eq_true, if_false]
    omega
  · simp [hcd]

section

variable {s : Game} {inp : Input}

/-- Dots and powers go one at a time. -/
theorem count_eatenMap (s : Game) (inp : Input) {d : Char} (hd : d = '.' ∨ d = '+') :
    (eatenMap s inp).count d + (if playerCell s inp = some d then 1 else 0) = s.map.count d := by
  have hblank : d ≠ ' ' := by rcases hd with rfl | rfl <;> decide
  unfold eatenMap
  split_ifs with hfood hcell hcell
  · have hcount := count_set hcell hblank
    rwa [if_pos rfl] at hcount
  · -- the other kind of food is eaten
    rcases hfood with hfood | hfood
    · have hne : '.' ≠ d := fun heq => hcell (heq ▸ hfood)
      have hcount := count_set hfood hblank
      rwa [if_neg hne] at hcount
    · have hne : '+' ≠ d := fun heq => hcell (heq ▸ hfood)
      have hcount := count_set hfood hblank
      rwa [if_neg hne] at hcount
  · rcases hd with rfl | rfl
    · exact absurd (Or.inl hcell) hfood
    · exact absurd (Or.inr hcell) hfood
  · rfl

/-- A call of `next` keeps the account. -/
theorem Accounted.next (hs : Accounted s) {t : Tick} (ht : next s inp = some t) :
    Accounted t.game := by
  have hspec := next_spec ht
  have hdots := count_eatenMap s inp (Or.inl rfl)
  have hpills := count_eatenMap s inp (Or.inr rfl)
  have hpower := hs.power
  have hlimit := hs.pills
  have hpoints := hs.points
  refine ⟨?_, ?_, ?_⟩
  · rw [hspec.points, hspec.map, hspec.level, ← hpoints, ← hdots]
    push_cast
    ring
  · rw [hspec.supermode, Pacman.power]
    split_ifs <;> omega
  · rw [hspec.supermode, hspec.map, Pacman.power]
    split_ifs at hpills ⊢ <;> omega

/-- A map without dots is replaced, and the level goes up by the dots of a map. -/
theorem Accounted.levelCheck {s' : Game} (hs : Accounted s) (h : levelCheck s = some s') :
    Accounted s' := by
  rcases levelCheck_eq_some_iff.mp h with ⟨-, rfl⟩ | ⟨hdot, -, rfl⟩
  · exact ⟨hs.points, hs.power, hs.pills⟩
  · have hpoints := hs.points
    have hnone : s.map.count '.' = 0 := List.count_eq_zero.mpr hdot
    refine ⟨?_, Int.le_refl 0, (show (0 : ℤ) + 25 * (freshMap.count '+' : ℤ) ≤ 100 by decide)⟩
    rw [hnone, Nat.cast_zero, add_zero] at hpoints
    show s.points + freshDots = (s.level + 1) * freshDots
    rw [hpoints]
    ring

/-- The level goes up when no dot is left. -/
theorem level_of_levelCheck {s' : Game} (h : Pacman.levelCheck s = some s') :
    (s'.level = s.level + 1 ↔ '.' ∉ s.map) ∧ ('.' ∈ s.map → s'.level = s.level) := by
  rcases levelCheck_eq_some_iff.mp h with ⟨hdot, rfl⟩ | ⟨hdot, -, rfl⟩
  · exact ⟨iff_of_false (by simp) (not_not.mpr hdot), fun _ => rfl⟩
  · exact ⟨iff_of_true rfl hdot, fun h => absurd h hdot⟩

end

/-! ## Whole runs -/

/-- A new game begins with a balanced account. -/
theorem accounted_newGame (s : Game) : Accounted (newGame s) := by
  refine ⟨?_, Int.le_refl 0, (show (0 : ℤ) + 25 * (freshMap.count '+' : ℤ) ≤ 100 by decide)⟩
  show (0 : ℤ) + freshDots = 1 * freshDots
  ring

/-- The account is balanced in every run. -/
theorem Run.accounted {h : List (Game × Option Input)} {s : Game} (hrun : Run h s) :
    Accounted s :=
  hrun.invariant accounted_newGame (fun _ _ _ hs ht => hs.next ht)
    fun _ _ hs hcheck => hs.levelCheck hcheck

/-- `next` leaves the level. -/
theorem level_of_afterNext {s s₁ : Game} {inp : Option Input} (h : AfterNext s inp s₁) :
    s₁.level = s.level := by
  cases h with
  | failed => rfl
  | next i t ht => exact (next_spec ht).level

/-- In every run the points and the power agree with the map, and a tick reaches the next level
exactly if `next` leaves no dot. -/
theorem run_accounted {h : List (Game × Option Input)} {s : Game} (hrun : Run h s) :
    Accounted s ∧ ∀ inp s', tick s inp = some s' → ∃ s₁, AfterNext s inp s₁ ∧
      levelCheck s₁ = some s' ∧ (s'.level = s.level + 1 ↔ '.' ∉ s₁.map) ∧
        ('.' ∈ s₁.map → s'.level = s.level) := by
  refine ⟨hrun.accounted, fun inp s' htick => ?_⟩
  obtain ⟨s₁, hnext, hcheck⟩ := tick_eq_some_iff.mp htick
  have hlevel := level_of_levelCheck hcheck
  rw [level_of_afterNext hnext] at hlevel
  exact ⟨s₁, hnext, hcheck, hlevel⟩

/-- In the first tick the player eats the dot of the cell where the game begins. -/
theorem run_accounted_first : ∃ s, tick (newGame zeroGame) (some noKey) = some s ∧
    Run [(newGame zeroGame, some noKey)] s ∧ Accounted s ∧ s.points = 1 ∧ s.level = 1 := by
  have heaten : ((tick (newGame zeroGame) (some noKey)).any fun s => s.points = 1) = true ∧
      ((next (newGame zeroGame) noKey).any fun t => '.' ∈ t.game.map) = true := by
    decide +kernel
  simp only [Option.any_eq_true, decide_eq_true_eq] at heaten
  obtain ⟨⟨s, hs, hpoints⟩, t, ht, hdots⟩ := heaten
  have hstart := Run.start zeroGame
  have hrun : Run [(newGame zeroGame, some noKey)] s := hstart.tick (some noKey) rfl hs
  obtain ⟨s₁, hnext, -, -, hlevel⟩ := (run_accounted hstart).2 (some noKey) s hs
  have hleft : '.' ∈ s₁.map := by
    cases hnext with
    | next inp t' ht' => rwa [Option.some.inj (ht'.symm.trans ht)]
  exact ⟨s, hs, hrun, (run_accounted hrun).1, hpoints, hlevel hleft⟩

/-! ## How far a run goes -/

theorem int_eq_some {n : ℤ} (h : 0 ≤ n) (hn : n < 2 ^ 31) : int n = some n := by
  rw [int, if_pos ⟨by omega, hn⟩]

/-- No dot comes back before the map is new. -/
theorem count_le_freshDots {h : List (Game × Option Input)} {s : Game} (hrun : Run h s) :
    (s.map.count '.' : ℤ) ≤ freshDots := by
  refine hrun.invariant (P := fun s => (s.map.count '.' : ℤ) ≤ freshDots)
    (fun s => Int.le_refl _) (fun s inp t hle ht => ?_) fun s s' hle hcheck => ?_
  · have hcount := count_eatenMap s inp (Or.inl rfl)
    rw [(next_spec ht).map]
    omega
  · rcases levelCheck_eq_some_iff.mp hcheck with ⟨-, rfl⟩ | ⟨-, -, rfl⟩
    · exact hle
    · exact Int.le_refl _

/-- A run goes on as long as the points and the level can be counted. -/
theorem exists_tick {h : List (Game × Option Input)} {s : Game} (hrun : Run h s)
    (hlevel : 1 ≤ s.level ∧ s.level + 1 < 2 ^ 31) (hpoints : s.points + 1 < 2 ^ 31)
    (inp : Option Input) : ∃ s', tick s inp = some s' := by
  have hcheck : ∀ s₁ : Game, s₁.level = s.level → ∃ s', levelCheck s₁ = some s' := by
    intro s₁ hs₁
    have hint : int (s₁.level + 1) = some (s₁.level + 1) :=
      int_eq_some (by omega) (by rw [hs₁]; exact hlevel.2)
    by_cases hdot : '.' ∈ s₁.map
    · exact ⟨_, levelCheck_eq_some_iff.mpr (Or.inl ⟨hdot, rfl⟩)⟩
    · exact ⟨_, levelCheck_eq_some_iff.mpr (Or.inr ⟨hdot, hint, rfl⟩)⟩
  cases inp with
  | none => exact hcheck s rfl
  | some inp =>
    have hnext : ∃ t, next s inp = some t := by
      have hdots := count_le_freshDots hrun
      have hsum := hrun.accounted.points
      have hint : int (s.points + 1) = some (s.points + 1) := by
        refine int_eq_some ?_ hpoints
        nlinarith
      refine Option.isSome_iff_exists.mp ?_
      simp only [next, eat, Option.bind_eq_bind]
      split_ifs
      · simp [moveAll, hint]
      · simp
      · simp
    obtain ⟨t, ht⟩ := hnext
    obtain ⟨s', hs'⟩ := hcheck t.game (next_spec ht).level
    exact ⟨s', tick_eq_some_iff.mpr ⟨_, .next inp t ht, hs'⟩⟩

end Backpack.Pacman
