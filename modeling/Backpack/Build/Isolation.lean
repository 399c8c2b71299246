import Backpack.Build.ModuleLoopTheorems

/-!
# What is packed into a module

A module is meant to hold what its own iteration changes. The ideal build below starts
every iteration with an empty `temp/`; the loop of `compile.sh` follows it as long as
`rm -r temp/*` empties the directory, which it does unless an entry with a leading dot is at
the top.
-/

namespace Backpack.Build

open Shell UnionFs

variable {α : Type}

/-! ## The ideal build -/

/-- What the install steps of a line change on top of some branches. -/
def changesOn (env : Env α) (line : Text) (layers : List (DirTree α)) : DirTree α :=
  UnionMount.writeAll ⟨emptyTree, layers⟩ (env.install (loopList line) emptyTree layers)

/-- The modules and the branches of the ideal build. -/
structure Ideal (α : Type) where
  mo : Text → Option (DirTree α)
  layers : List (Text × DirTree α)

def Ideal.step (env : Env α) (s : Ideal α) (line : Text) : Ideal α :=
  match if env.fast then s.mo (moduleFile line) else none with
  | some t => { s with layers := (moduleFile line, t) :: s.layers }
  | none =>
    let t := changesOn env line (s.layers.map Prod.snd)
    { mo := Function.update s.mo (moduleFile line) (some t)
      layers := (moduleFile line, t) :: s.layers }

def ideal (env : Env α) (mo : Text → Option (DirTree α)) (lines : List Text) : Ideal α :=
  lines.foldl (Ideal.step env) ⟨mo, []⟩

/-- One line more is one step more. -/
theorem ideal_concat (env : Env α) (mo : Text → Option (DirTree α)) (lines : List Text)
    (line : Text) : ideal env mo (lines ++ [line]) = (ideal env mo lines).step env line := by
  simp [ideal]

/-- A skipped module is laid over the others as it was. -/
theorem Ideal.step_of_skips {env : Env α} {s : Ideal α} {line : Text} {t : DirTree α}
    (hfast : env.fast = true) (ht : s.mo (moduleFile line) = some t) :
    s.step env line = { s with layers := (moduleFile line, t) :: s.layers } := by
  simp [Ideal.step, hfast, ht]

/-- Another one is built over the modules before it. -/
theorem Ideal.step_of_builds {env : Env α} {s : Ideal α} {line : Text}
    (h : ¬ Skips env s.mo line) : s.step env line =
      { mo := Function.update s.mo (moduleFile line)
          (some (changesOn env line (s.layers.map Prod.snd)))
        layers := (moduleFile line, changesOn env line (s.layers.map Prod.snd)) :: s.layers } := by
  have hnone : (if env.fast then s.mo (moduleFile line) else none) = none := by
    unfold Skips at h
    rw [not_and, Bool.not_eq_true, Option.isSome_eq_false_iff, Option.isNone_iff_eq_none] at h
    split_ifs with hfast
    · exact h hfast
    · rfl
  simp only [Ideal.step, hnone]

/-- No entry at the top of the tree has a name with a leading dot. -/
def NoTopDots (t : DirTree α) : Prop :=
  ∀ name p, (t (name :: p)).isSome = true → name.head? ≠ some '.'

/-- No iteration that is followed by another one leaves an entry with a leading dot at the
top of an empty `temp/`. -/
def Tidy (env : Env α) (mo : Text → Option (DirTree α)) (lines : List Text) : Prop :=
  ∀ pre line post, lines = pre ++ line :: post → post ≠ [] →
    ¬ Skips env (ideal env mo pre).mo line →
    NoTopDots (changesOn env line ((ideal env mo pre).layers.map Prod.snd))

/-! ## Emptying `temp/` -/

/-- Without hidden names at the top, `rm -r temp/*` leaves nothing. -/
theorem clearTemp_eq_empty {t : DirTree α} (hroot : t [] = none) (h : NoTopDots t) :
    clearTemp t = emptyTree := by
  funext p
  cases p with
  | nil => exact hroot
  | cons name p =>
    have hglob : globMatch ['*'] name = true :=
      (globMatch_many_ordinary (w := []) (by simp)).mpr List.nil_suffix
    have hclear : clearTemp t (name :: p) =
        if pathMatch ['*'] name then none else t (name :: p) := rfl
    rw [hclear]
    by_cases hdot : name.head? = some '.'
    · rw [if_neg (by simp [pathMatch, hdot])]
      by_contra hsome
      exact h name p (Option.ne_none_iff_isSome.mp hsome) hdot
    · rw [if_pos (by simp [pathMatch, hglob, hdot])]
      rfl

/-! ## The loop follows the ideal build -/

section
variable {env : Env α} {mo : Text → Option (DirTree α)} {lines : List Text}

/-- A run that was not ended was not ended before. -/
theorem run_exited_of_append {pre post : List Text}
    (h : (run env mo (pre ++ post)).exited = false) : (run env mo pre).exited = false := by
  by_contra hexit
  rw [Bool.not_eq_false] at hexit
  rw [run_append_of_exited hexit, hexit] at h
  exact absurd h (by decide)

/-- The state of the loop is that of the ideal build, with an empty `temp/` in front of
every iteration. -/
theorem run_follows_ideal (hmount : ∀ i, env.mounts i = true) (htidy : Tidy env mo lines)
    {pre post : List Text} (hlines : lines = pre ++ post)
    (hexit : (run env mo pre).exited = false) :
    (run env mo pre).files.mo = (ideal env mo pre).mo ∧
      (run env mo pre).files.layers = (ideal env mo pre).layers ∧
      (post ≠ [] → (run env mo pre).files.temp = emptyTree) := by
  induction pre using List.reverseRecOn generalizing post with
  | nil => exact ⟨rfl, rfl, fun _ => rfl⟩
  | append_singleton pre line ih =>
    have hexit' := run_exited_of_append hexit
    have hsplit : lines = pre ++ line :: post := by simp [hlines]
    rcases ih hsplit hexit' with ⟨hmo, hlayers, htemp⟩
    have hempty := htemp (List.cons_ne_nil line post)
    rw [run_concat hexit'] at hexit ⊢
    rw [ideal_concat]
    by_cases hskip : Skips env (run env mo pre).files.mo line
    · rcases @iteration_of_skips α env line pre.length _ hskip with ⟨t, ht, heq⟩
      rw [heq, mountModule_eq, Ideal.step_of_skips hskip.1 (hmo ▸ ht)]
      exact ⟨hmo, by simp [hmount, hlayers], fun _ => hempty⟩
    · have hinst : installed env line (run env mo pre).files =
          changesOn env line ((ideal env mo pre).layers.map Prod.snd) := by
        unfold installed changesOn
        rw [hempty, hlayers]
      rw [iteration_of_builds hskip] at hexit ⊢
      rw [hmo] at hskip
      split_ifs at hexit ⊢ with hpack
      rw [packed, mountModule_eq, hinst, Ideal.step_of_builds hskip]
      refine ⟨by rw [hmo], by simp [hmount, hlayers], fun hpost => ?_⟩
      exact clearTemp_eq_empty (UnionMount.writeAll_root rfl _)
        (htidy pre line post hsplit hpost hskip)

/-- What iteration `line` changes in the given state, on top of an empty `temp/`. -/
def changed (env : Env α) (line : Text) (d : Disk α) : DirTree α :=
  UnionMount.writeAll ⟨emptyTree, d.layers.map Prod.snd⟩
    (env.install (loopList line) d.temp (d.layers.map Prod.snd))

/-- Every module holds what its own iteration changed on top of the modules before it, and
`--fast` rebuilds a deleted module as it was. -/
structure Isolated (env : Env α) (mo : Text → Option (DirTree α)) (lines : List Text) : Prop where
  branches : ∀ pre post, lines = pre ++ post → (run env mo pre).exited = false →
    (run env mo pre).files.layers.map Prod.fst = (pre.map moduleFile).reverse
  packed : ∀ pre line post, lines = pre ++ line :: post → (run env mo pre).exited = false →
    ¬ Skips env (run env mo pre).files.mo line → ∀ t,
    (run env mo (pre ++ [line])).files.mo (moduleFile line) = some t →
      t = changed env line (run env mo pre).files
  rebuilt : env.fast = false → (∀ i, env.packs i = true) → (lines.map moduleFile).Nodup →
    ∀ line ∈ lines,
      (run { env with fast := true }
        (Function.update (run env mo lines).files.mo (moduleFile line) none) lines).files.mo
        (moduleFile line) = (run env mo lines).files.mo (moduleFile line)

/-- From an empty temp, a module holds the changes made over the branches. -/
theorem changed_eq_changesOn {line : Text} {d : Disk α} (h : d.temp = emptyTree) :
    changed env line d = changesOn env line (d.layers.map Prod.snd) := by
  unfold changed changesOn
  rw [h]

/-- A run goes on with the remaining lines. -/
theorem run_append (pre post : List Text) (h : (run env mo pre).exited = false) :
    run env mo (pre ++ post) = forEach (iteration env) (post.zipIdx pre.length) (run env mo pre) := by
  unfold run at h ⊢
  rw [List.zipIdx_append, forEach_append rfl, h]
  simp

/-- The other iterations do not touch the file of a module. -/
theorem forEach_mo {name : Text} {post : List Text} {i : ℕ} {p : Proc (Disk α) Vars}
    (h : name ∉ post.map moduleFile) :
    (forEach (iteration env) (post.zipIdx i) p).files.mo name = p.files.mo name := by
  refine forEach_induction (P := fun q : Proc (Disk α) Vars => q.files.mo name = p.files.mo name)
    rfl ?_
  rintro ⟨line, j⟩ hline q hq
  have hne : name ≠ moduleFile line := by
    rintro rfl
    exact h (List.mem_map_of_mem (List.fst_mem_of_mem_zipIdx hline))
  by_cases hskip : Skips env q.files.mo line
  · rcases @iteration_of_skips α env line j q hskip with ⟨t, -, heq⟩
    rw [heq, mountModule_eq]
    exact hq
  · rw [iteration_of_builds hskip, Build.packed, mountModule_eq, unpacked]
    cases env.packs j
    · exact (Function.update_of_ne hne _ _).trans hq
    · exact (Function.update_of_ne hne _ _).trans hq

/-! ## Rebuilding with `--fast` -/

/-- In a full build every module is what its line changed on top of the lines before. -/
theorem ideal_mo (hfast : env.fast = false) {pre post : List Text} {line : Text}
    (hnew : moduleFile line ∉ post.map moduleFile) :
    (ideal env mo (pre ++ line :: post)).mo (moduleFile line) =
      some (changesOn env line ((ideal env mo pre).layers.map Prod.snd)) := by
  induction post using List.reverseRecOn with
  | nil =>
    rw [ideal_concat, Ideal.step_of_builds (not_skips hfast _ _)]
    simp
  | append_singleton post l ih =>
    rw [List.map_append, List.mem_append, not_or] at hnew
    have hne : moduleFile line ≠ moduleFile l := by simpa using hnew.2
    rw [← List.cons_append, ← List.append_assoc, ideal_concat,
      Ideal.step_of_builds (not_skips hfast _ _)]
    exact (Function.update_of_ne hne _ _).trans (ih hnew.1)

/-- With the modules of a full build in place, `--fast` stacks up the same branches. -/
theorem ideal_fast (hfast : env.fast = false) {mo' : Text → Option (DirTree α)}
    (hnodup : (lines.map moduleFile).Nodup) {pre post : List Text} (hlines : lines = pre ++ post)
    (hmo' : ∀ l ∈ pre, mo' (moduleFile l) = (ideal env mo lines).mo (moduleFile l)) :
    ideal { env with fast := true } mo' pre = ⟨mo', (ideal env mo pre).layers⟩ := by
  induction pre using List.reverseRecOn generalizing post with
  | nil => rfl
  | append_singleton pre l ih =>
    have hsplit : lines = pre ++ l :: post := by simp [hlines]
    have hpre := ih hsplit fun m hm => hmo' m (List.mem_append_left _ hm)
    have hnew : moduleFile l ∉ post.map moduleFile := by
      rw [hsplit, List.map_append, List.map_cons] at hnodup
      exact (List.nodup_cons.mp (List.nodup_append.mp hnodup).2.1).1
    have hmo := hmo' l (List.mem_append_right _ (List.mem_singleton_self l))
    rw [hsplit, ideal_mo hfast hnew] at hmo
    rw [ideal_concat, ideal_concat, hpre, Ideal.step_of_skips rfl hmo,
      Ideal.step_of_builds (not_skips hfast _ _)]

/-- Up to the deleted module everything is mounted, so nothing is written to `temp/`. -/
theorem tidy_fast (hfast : env.fast = false) {mo' : Text → Option (DirTree α)}
    (hnodup : (lines.map moduleFile).Nodup) {pre post : List Text} {line : Text}
    (hlines : lines = pre ++ line :: post)
    (hmo' : ∀ l ∈ pre, mo' (moduleFile l) = (ideal env mo lines).mo (moduleFile l)) :
    Tidy { env with fast := true } mo' (pre ++ [line]) := by
  intro p l q hpq hq hbuild
  rcases List.eq_nil_or_concat q with rfl | ⟨q, l', rfl⟩
  · exact absurd rfl hq
  have heq : pre ++ [line] = (p ++ l :: q) ++ [l'] := by simpa using hpq
  obtain rfl : pre = p ++ l :: q := (List.append_singleton_inj.mp heq).1
  have hsplit : lines = p ++ l :: (q ++ line :: post) := by simp [hlines]
  have hideal : ideal { env with fast := true } mo' p = ⟨mo', (ideal env mo p).layers⟩ :=
    ideal_fast hfast hnodup hsplit fun m hm => hmo' m (by simp [hm])
  have hnew : moduleFile l ∉ (q ++ line :: post).map moduleFile := by
    rw [hsplit, List.map_append, List.map_cons] at hnodup
    exact (List.nodup_cons.mp (List.nodup_append.mp hnodup).2.1).1
  have hmo : (mo' (moduleFile l)).isSome = true := by
    rw [hmo' l (by simp), hsplit, ideal_mo hfast hnew]
    rfl
  refine absurd ⟨rfl, ?_⟩ hbuild
  rw [hideal]
  exact hmo

/-- When every mksquashfs succeeds, no run is ended. -/
theorem run_not_exited (hpack : ∀ i, env.packs i = true) : (run env mo lines).exited = false := by
  have hall : AllPacked env mo lines := by
    intro pre line post _ hfail
    rw [hpack] at hfail
    exact absurd hfail (by decide)
  exact (run_goesWell hall).exited

/-- In a tidy run, what --fast skips is what a full run builds. -/
theorem rebuilt_of_tidy (hmount : ∀ i, env.mounts i = true) (htidy : Tidy env mo lines)
    (hfast : env.fast = false) (hpack : ∀ i, env.packs i = true)
    (hnodup : (lines.map moduleFile).Nodup) {line : Text} (hline : line ∈ lines) :
    (run { env with fast := true }
      (Function.update (run env mo lines).files.mo (moduleFile line) none) lines).files.mo
      (moduleFile line) = (run env mo lines).files.mo (moduleFile line) := by
  rcases List.append_of_mem hline with ⟨pre, post, hsplit⟩
  have hfull : (run env mo lines).files.mo = (ideal env mo lines).mo :=
    (run_follows_ideal hmount htidy (List.append_nil lines).symm (run_not_exited hpack)).1
  have hparts := hnodup
  rw [hsplit, List.map_append, List.map_cons, List.nodup_append, List.nodup_cons] at hparts
  have hnew : moduleFile line ∉ post.map moduleFile := hparts.2.1.1
  rw [hfull]
  generalize hmo' : Function.update (ideal env mo lines).mo (moduleFile line) none = mo'
  have hothers : ∀ l ∈ pre, mo' (moduleFile l) = (ideal env mo lines).mo (moduleFile l) := by
    intro l hl
    rw [← hmo']
    exact Function.update_of_ne
      (hparts.2.2 _ (List.mem_map_of_mem hl) _ List.mem_cons_self) _ _
  have hexit : (run { env with fast := true } mo' pre).exited = false :=
    run_not_exited (by exact hpack)
  rcases run_follows_ideal (by exact hmount) (tidy_fast hfast hnodup hsplit hothers) rfl hexit with
    ⟨hmo, hlayers, htemp⟩
  have hempty := htemp (List.cons_ne_nil line [])
  rw [ideal_fast hfast hnodup hsplit hothers] at hmo hlayers
  have hbuilds : ¬ Skips { env with fast := true }
      (run { env with fast := true } mo' pre).files.mo line := by
    rintro ⟨-, hsome⟩
    rw [hmo, ← hmo'] at hsome
    simp at hsome
  have hinst : installed { env with fast := true } line
      (run { env with fast := true } mo' pre).files =
      changesOn env line ((ideal env mo pre).layers.map Prod.snd) := by
    unfold installed changesOn
    rw [hempty, hlayers]
  have hstep : (iteration { env with fast := true } (line, pre.length)
      (run { env with fast := true } mo' pre)).files.mo (moduleFile line) =
      some (changesOn env line ((ideal env mo pre).layers.map Prod.snd)) := by
    rw [iteration_of_builds hbuilds, if_pos (hpack _), packed, mountModule_eq, hinst]
    simp
  have hsecond : run { env with fast := true } mo' lines =
      forEach (iteration { env with fast := true }) (post.zipIdx (pre.length + 1))
        (iteration { env with fast := true } (line, pre.length)
          (run { env with fast := true } mo' pre)) := by
    have hexit' : (run { env with fast := true } mo' (pre ++ [line])).exited = false :=
      run_not_exited (by exact hpack)
    have hcons : lines = (pre ++ [line]) ++ post := by simp [hsplit]
    rw [hcons, run_append _ _ hexit', run_concat hexit, List.length_append]
    rfl
  rw [hsecond, forEach_mo hnew, hstep]
  conv_rhs => rw [hsplit, ideal_mo hfast hnew]

/-- The branches are named like the lines, last one first. -/
theorem run_layers (hmount : ∀ i, env.mounts i = true) {pre : List Text}
    (hexit : (run env mo pre).exited = false) :
    (run env mo pre).files.layers.map Prod.fst = (pre.map moduleFile).reverse := by
  induction pre using List.reverseRecOn with
  | nil => rfl
  | append_singleton pre line ih =>
    have hexit' := run_exited_of_append hexit
    rw [run_concat hexit'] at hexit ⊢
    rw [List.map_append, List.reverse_append, ← ih hexit']
    by_cases hskip : Skips env (run env mo pre).files.mo line
    · rcases @iteration_of_skips α env line pre.length _ hskip with ⟨t, -, heq⟩
      rw [heq, mountModule_eq]
      simp [hmount]
    · rw [iteration_of_builds hskip] at hexit ⊢
      split_ifs at hexit ⊢
      rw [packed, mountModule_eq]
      simp [hmount]

/-- In every run of the loop in which no iteration but the last leaves an entry with a leading
dot at the top of `temp/`, all modules are isolated. -/
theorem isolated_of_tidy (hmount : ∀ i, env.mounts i = true) (htidy : Tidy env mo lines) :
    Isolated env mo lines := by
  refine ⟨fun pre post _ hexit => run_layers hmount hexit, ?_, fun hfast hpack hnodup line hline =>
    rebuilt_of_tidy hmount htidy hfast hpack hnodup hline⟩
  intro pre line post hlines hexit hskip t ht
  rcases run_follows_ideal hmount htidy hlines hexit with ⟨-, -, htemp⟩
  have hempty := htemp (List.cons_ne_nil line post)
  rw [run_concat hexit, iteration_of_builds hskip] at ht
  unfold changed
  split_ifs at ht with hpack
  · rw [packed, mountModule_eq] at ht
    have htree : some (installed env line (run env mo pre).files) = some t := by
      simpa using ht
    rw [← Option.some.inj htree, installed, hempty]
  · simp [unpacked] at ht

end

/-! ## Changes without dots -/

/-- The entry is not at the top under a hidden name, and nothing is deleted at the top. -/
def visibleChange : Change α → Bool
  | .put dir name _ => (dir ++ [name]).head?.any fun top => top.head? != some '.'
  | .delete dir _ _ => dir.head?.any fun top => top.head? != some '.'

/-- A change that is no hidden name at the top makes none. -/
theorem noTopDots_write {u : UnionMount α} (hu : NoTopDots u.rw) {c : Change α}
    (hc : visibleChange c = true) : NoTopDots (u.write c) := by
  -- the directories above the change are the only other entries that can appear
  have hcopy : ∀ {dir : Path}, dir.head?.any (fun top => top.head? != some '.') = true ∨ dir = [] →
      NoTopDots (u.copyUp dir) := by
    intro dir hdir name p hp
    unfold UnionMount.copyUp at hp
    split_ifs at hp with hpre
    · rcases dir with _ | ⟨top, dir⟩
      · exact absurd (List.prefix_nil.mp hpre.2) hpre.1
      · obtain rfl : name = top := (List.cons_prefix_cons.mp hpre.2).1
        simpa using hdir
    · exact hu name p hp
  intro name p hp
  cases c with
  | put dir n x =>
    have hdir : dir.head?.any (fun top => top.head? != some '.') = true ∨ dir = [] := by
      rcases dir with _ | ⟨top, dir⟩
      · exact Or.inr rfl
      · exact Or.inl hc
    simp only [UnionMount.write] at hp
    split_ifs at hp with hname
    · have hhead : (dir ++ [n]).head? = some name := by rw [← hname]; rfl
      simpa [visibleChange, hhead] using hc
    · simp at hp
    · exact hcopy hdir name p hp
  | delete dir n mark =>
    have hdir : dir.head?.any (fun top => top.head? != some '.') = true := hc
    simp only [UnionMount.write] at hp
    split_ifs at hp with _ hwhiteout
    · simp at hp
    · rcases dir with _ | ⟨top, dir⟩
      · simp at hdir
      · obtain rfl : name = top := (List.cons.inj hwhiteout).1
        simpa using hdir
    · simp at hp
    · exact hcopy (Or.inl hdir) name p hp

/-- Neither do many. -/
theorem noTopDots_writeAll {u : UnionMount α} (hu : NoTopDots u.rw) {cs : List (Change α)}
    (hcs : ∀ c ∈ cs, visibleChange c = true) : NoTopDots (u.writeAll cs) := by
  unfold UnionMount.writeAll
  induction cs generalizing u with
  | nil => exact hu
  | cons c cs ih =>
    have hwrite := noTopDots_write hu (hcs c List.mem_cons_self)
    exact @ih ⟨u.write c, u.ro⟩ hwrite fun d hd => hcs d (List.mem_cons_of_mem c hd)

/-- Install steps that do not touch hidden names at the top keep the build tidy. -/
theorem tidy_of_visible {env : Env α}
    (h : ∀ list temp layers, ∀ c ∈ env.install list temp layers, visibleChange c = true)
    (mo : Text → Option (DirTree α)) (lines : List Text) : Tidy env mo lines := by
  intro pre line post _ _ _
  exact noTopDots_writeAll (fun _ _ hp => by simp [emptyTree] at hp) (h _ _ _)

/-! ## A hidden file at the top -/

/-- Every install step creates one file. -/
def oneFileEnv (dir : Path) : Env Unit where
  fast := false
  install := fun list _ _ => [.put dir list ()]
  packs := fun _ => true
  mounts := fun _ => true
  kernel := true

/-- Install commands that write to /etc are isolated. -/
theorem isolated_etc :
    Isolated (oneFileEnv ["etc".toList]) (fun _ => none) ["base".toList, "kde".toList] :=
  isolated_of_tidy (fun _ => rfl) (tidy_of_visible (fun list _ _ c hc => by
    rw [List.mem_singleton.mp hc]
    rfl) _ _)

/-- The first module creates `/.cache`, the second one nothing. -/
def cacheEnv : Env Unit where
  fast := false
  install := fun list _ _ =>
    if list = loopList "base".toList then [.put [] ".cache".toList ()] else []
  packs := fun _ => true
  mounts := fun _ => true
  kernel := true

/-- `/.cache` is packed again into the second module. -/
theorem not_isolated_of_dot :
    ¬ ∀ (env : Env Unit) (mo : Text → Option (DirTree Unit)) (lines : List Text),
      (∀ i, env.mounts i = true) → Isolated env mo lines := by
  intro h
  have hsecond := (h cacheEnv (fun _ => none) ["base".toList, "kde".toList] fun _ => rfl).packed
    ["base".toList] "kde".toList [] rfl (by decide) (by decide)
  have hcache : changed cacheEnv "kde".toList
      (run cacheEnv (fun _ => none) ["base".toList]).files [".cache".toList] = none := by decide
  have hagain : ((run cacheEnv (fun _ => none) (["base".toList] ++ ["kde".toList])).files.mo
      (moduleFile "kde".toList)).bind (fun t => t [".cache".toList]) = some () := by decide
  rcases Option.bind_eq_some_iff.mp hagain with ⟨t, hmo, ht⟩
  rw [hsecond t hmo, hcache] at ht
  exact absurd ht (by decide)

end Backpack.Build
