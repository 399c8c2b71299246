import Backpack.Build.ModuleLoop

/-!
# What a failed module does to the release

The loop runs on the right side of a pipe, so its `exit` ends a subshell only. A module that
cannot be packed stops the loop, not the script: the ISO stage is reached whenever the
kernel is found.
-/

namespace Backpack.Build

open Shell UnionFs

variable {α : Type}

/-! ## One iteration -/

/-- The module exists and is only mounted. -/
def Skips (env : Env α) (mo : Text → Option (DirTree α)) (line : Text) : Prop :=
  env.fast = true ∧ (mo (moduleFile line)).isSome = true

instance (env : Env α) (mo : Text → Option (DirTree α)) (line : Text) :
    Decidable (Skips env mo line) := inferInstanceAs (Decidable (_ ∧ _))

/-- Without --fast no module is skipped. -/
theorem not_skips {env : Env α} (hfast : env.fast = false) (mo : Text → Option (DirTree α))
    (line : Text) : ¬ Skips env mo line := by
  intro h
  have htrue : env.fast = true := h.1
  rw [hfast] at htrue
  exact absurd htrue (by decide)

/-- A skipped module is mounted as it is. -/
theorem iteration_of_skips {env : Env α} {line : Text} {i : ℕ} {p : Proc (Disk α) Vars}
    (h : Skips env p.files.mo line) :
    ∃ t, p.files.mo (moduleFile line) = some t ∧ iteration env (line, i) p =
      { p with
        files := mountModule env i (moduleFile line) t p.files
        vars.generated := false } := by
  rcases h with ⟨hfast, hmo⟩
  rcases Option.isSome_iff_exists.mp hmo with ⟨t, ht⟩
  refine ⟨t, ht, ?_⟩
  simp [iteration, hfast, ht]

/-- The files after a module has been packed and mounted. -/
def packed (env : Env α) (line : Text) (i : ℕ) (d : Disk α) : Disk α :=
  let t := installed env line d
  let d := mountModule env i (moduleFile line) t
    { d with temp := t, mo := Function.update d.mo (moduleFile line) (some t) }
  { d with temp := clearTemp d.temp }

/-- The files after `mksquashfs` has failed. -/
def unpacked (env : Env α) (line : Text) (d : Disk α) : Disk α :=
  { d with
    temp := installed env line d
    mo := Function.update d.mo (moduleFile line) none
    failed := moduleFile line :: d.failed }

/-- Another one is built, and a failed mksquashfs ends the script. -/
theorem iteration_of_builds {env : Env α} {line : Text} {i : ℕ} {p : Proc (Disk α) Vars}
    (h : ¬ Skips env p.files.mo line) :
    iteration env (line, i) p =
      if env.packs i then { p with files := packed env line i p.files, vars.generated := true }
      else { p with files := unpacked env line p.files, vars.generated := true, exited := true } := by
  have hnone : (if env.fast then p.files.mo (moduleFile line) else none) = none := by
    unfold Skips at h
    rw [not_and, Bool.not_eq_true, Option.isSome_eq_false_iff, Option.isNone_iff_eq_none] at h
    split_ifs with hfast
    · exact h hfast
    · rfl
  unfold iteration
  simp only [hnone]
  cases hpack : env.packs i with
  | true => simp [packed, Function.update_self, mountModule]
  | false => simp [unpacked, Shell.exit]

/-- A module is mounted on top when mount succeeds. -/
theorem mountModule_eq (env : Env α) (i : ℕ) (name : Text) (t : DirTree α) (d : Disk α) :
    mountModule env i name t d =
      { d with layers := if env.mounts i then (name, t) :: d.layers else d.layers } := by
  unfold mountModule
  split_ifs <;> rfl

/-! ## The loop -/

/-- The loop over some lines, from the beginning. -/
def run (env : Env α) (mo : Text → Option (DirTree α)) (lines : List Text) : Proc (Disk α) Vars :=
  forEach (iteration env) lines.zipIdx (atLoop mo)

/-- A run goes on by one turn, unless it was ended. -/
theorem run_concat {env : Env α} {mo : Text → Option (DirTree α)} {lines : List Text} {line : Text}
    (h : (run env mo lines).exited = false) :
    run env mo (lines ++ [line]) = iteration env (line, lines.length) (run env mo lines) := by
  unfold run at h ⊢
  rw [List.zipIdx_append]
  simp only [Nat.zero_add, List.zipIdx_singleton]
  exact forEach_concat h rfl

/-- A loop that has exited does not see the lines that follow. -/
theorem run_append_of_exited {env : Env α} {mo : Text → Option (DirTree α)} {lines : List Text}
    (h : (run env mo lines).exited = true) (rest : List Text) :
    run env mo (lines ++ rest) = run env mo lines := by
  unfold run at h ⊢
  rw [List.zipIdx_append, forEach_append rfl, if_pos h]

/-- Every module of the lines is packed, or `--fast` finds it. -/
def AllPacked (env : Env α) (mo : Text → Option (DirTree α)) (lines : List Text) : Prop :=
  ∀ pre line post, lines = pre ++ line :: post → env.packs pre.length = false →
    env.fast = true ∧
      ((mo (moduleFile line)).isSome = true ∨ moduleFile line ∈ pre.map moduleFile)

/-- The loop has gone well so far. -/
structure GoesWell (mo : Text → Option (DirTree α)) (lines : List Text) (p : Proc (Disk α) Vars) :
    Prop where
  exited : p.exited = false
  failed : p.files.failed = []
  mo : ∀ name, (p.files.mo name).isSome = true ↔
    (mo name).isSome = true ∨ name ∈ lines.map moduleFile

/-- One more line. -/
theorem GoesWell.iteration {env : Env α} {mo : Text → Option (DirTree α)} {lines : List Text}
    {p : Proc (Disk α) Vars} (h : GoesWell mo lines p) (line : Text) :
    (env.packs lines.length = false → env.fast = true ∧
      ((mo (moduleFile line)).isSome = true ∨ moduleFile line ∈ lines.map moduleFile)) →
    GoesWell mo (lines ++ [line]) (iteration env (line, lines.length) p) := by
  intro hpack
  by_cases hskip : Skips env p.files.mo line
  · rcases @iteration_of_skips α env line lines.length p hskip with ⟨t, ht, heq⟩
    rw [heq, mountModule_eq]
    refine ⟨h.exited, h.failed, fun name => ?_⟩
    have hname := (h.mo (moduleFile line)).mp hskip.2
    show (p.files.mo name).isSome = true ↔ _
    rw [h.mo name, List.map_append, List.mem_append, List.map_singleton, List.mem_singleton]
    constructor
    · rintro (hn | hn)
      · exact Or.inl hn
      · exact Or.inr (Or.inl hn)
    · rintro (hn | hn | rfl)
      · exact Or.inl hn
      · exact Or.inr hn
      · exact hname
  · have hpacks : env.packs lines.length = true := by
      by_contra hfail
      rcases hpack (by simpa using hfail) with ⟨hfast, hmo⟩
      exact hskip ⟨hfast, (h.mo _).mpr hmo⟩
    rw [iteration_of_builds hskip, if_pos hpacks, packed, mountModule_eq]
    refine ⟨h.exited, h.failed, fun name => ?_⟩
    show (Function.update p.files.mo (moduleFile line) (some _) name).isSome = true ↔ _
    rw [List.map_append, List.mem_append, List.map_singleton, List.mem_singleton]
    by_cases hn : name = moduleFile line
    · subst hn
      simp
    · rw [Function.update_of_ne hn, h.mo name]
      simp [hn]

/-- When all modules are packed, the run goes well. -/
theorem run_goesWell {env : Env α} {mo : Text → Option (DirTree α)} {lines : List Text}
    (h : AllPacked env mo lines) : GoesWell mo lines (run env mo lines) := by
  induction lines using List.reverseRecOn with
  | nil => exact ⟨rfl, rfl, fun name => by simp [run, atLoop, forEach]⟩
  | append_singleton lines line ih =>
    have hlines : AllPacked env mo lines := by
      intro pre l post heq
      exact h pre l (post ++ [line]) (by simp [heq])
    have hwell := ih hlines
    rw [run_concat hwell.exited]
    exact hwell.iteration line (h lines line [] rfl)

/-- The first module that cannot be packed ends the loop. -/
theorem run_of_failure {env : Env α} {mo : Text → Option (DirTree α)} {lines : List Text}
    (h : ¬ AllPacked env mo lines) : (run env mo lines).exited = true ∧
      (run env mo lines).files.failed ≠ [] ∧
      ∃ line ∈ lines, (run env mo lines).files.mo (moduleFile line) = none := by
  induction lines using List.reverseRecOn with
  | nil =>
    refine absurd ?_ h
    intro pre line post heq
    simp at heq
  | append_singleton lines line ih =>
    by_cases hlines : AllPacked env mo lines
    · have hwell := run_goesWell hlines
      have hfail : ¬ (env.packs lines.length = false → env.fast = true ∧
          ((mo (moduleFile line)).isSome = true ∨ moduleFile line ∈ lines.map moduleFile)) := by
        intro hlast
        apply h
        intro pre l post heq
        rcases List.eq_nil_or_concat post with rfl | ⟨post, l', rfl⟩
        · obtain ⟨rfl, rfl⟩ := List.append_singleton_inj.mp heq
          exact hlast
        · have heq' : lines ++ [line] = (pre ++ l :: post) ++ [l'] := by simpa using heq
          exact hlines pre l post (List.append_singleton_inj.mp heq').1
      rw [Classical.not_imp] at hfail
      have hskip : ¬ Skips env (run env mo lines).files.mo line := by
        rintro ⟨hfast, hmo⟩
        exact hfail.2 ⟨hfast, (hwell.mo _).mp hmo⟩
      rw [run_concat hwell.exited, iteration_of_builds hskip, if_neg (by simp [hfail.1])]
      exact ⟨rfl, List.cons_ne_nil _ _, line, by simp, by simp [unpacked]⟩
    · rcases ih hlines with ⟨hexit, hfailed, l, hl, hnone⟩
      rw [run_append_of_exited hexit]
      exact ⟨hexit, hfailed, l, List.mem_append_left _ hl, hnone⟩

/-! ## The ISO stage -/

/-- What happens in the loop does not decide whether the ISO stage is reached. -/
theorem compile_eq (env : Env α) (order : Text) (mo : Text → Option (DirTree α)) :
    (compile env order (atLoop mo)).files =
      { (run env mo (readValues order)).files with iso := env.kernel } := by
  have hiso : (run env mo (readValues order)).files.iso = false := by
    refine forEach_induction (P := fun p : Proc (Disk α) Vars => p.files.iso = false) rfl ?_
    rintro ⟨line, i⟩ - p hp
    by_cases hskip : Skips env p.files.mo line
    · rcases @iteration_of_skips α env line i p hskip with ⟨t, -, heq⟩
      rw [heq, mountModule_eq]
      exact hp
    · rw [iteration_of_builds hskip, packed, mountModule_eq]
      cases env.packs i
      · exact hp
      · exact hp
  have hloop : moduleLoop env order (atLoop mo) =
      { atLoop mo with files := (run env mo (readValues order)).files } := rfl
  have hflag : when (atLoop mo).vars.exitFlag (exit (F := Disk α) (V := Vars)) = id := rfl
  unfold compile
  rw [seq_of_not_exited (by rw [hloop]; rfl), hloop, seq_of_not_exited (by rw [hflag]; rfl), hflag]
  cases hkernel : env.kernel with
  | true =>
    rw [seq_of_not_exited (by rfl)]
    rfl
  | false =>
    show (run env mo (readValues order)).files = _
    rw [← hiso]

/-- If a module could not be created there is no ISO image, and where there is one every
module of `order.txt` exists. -/
structure StopsOnFailure (env : Env α) (order : Text) (mo : Text → Option (DirTree α)) : Prop where
  failure : (compile env order (atLoop mo)).files.failed ≠ [] →
    (compile env order (atLoop mo)).files.iso = false
  complete : (compile env order (atLoop mo)).files.iso = true → ∀ line ∈ readValues order,
    ((compile env order (atLoop mo)).files.mo (moduleFile line)).isSome = true

/-- A failed module keeps the script from the ISO stage only when something else does: the
release is right exactly if every module is packed, or the kernel is missing. -/
theorem stopsOnFailure_iff (env : Env α) (order : Text) (mo : Text → Option (DirTree α)) :
    StopsOnFailure env order mo ↔
      (env.kernel = true → AllPacked env mo (readValues order)) := by
  have heq := compile_eq env order mo
  constructor
  · intro h hkernel
    by_contra hnot
    have hiso := h.failure (by rw [heq]; exact (run_of_failure hnot).2.1)
    rw [heq] at hiso
    exact absurd (hkernel.symm.trans hiso) (by decide)
  · intro h
    refine ⟨fun hfailed => ?_, fun hiso line hline => ?_⟩
    · rw [heq] at hfailed ⊢
      by_contra hkernel
      exact hfailed (run_goesWell (h (by simpa using hkernel))).failed
    · rw [heq] at hiso ⊢
      exact ((run_goesWell (h hiso)).mo _).mpr (Or.inr (List.mem_map_of_mem hline))

/-- One module, whose `mksquashfs` fails. -/
def failingEnv : Env Unit where
  fast := false
  install := fun _ _ _ => []
  packs := fun _ => false
  mounts := fun _ => true
  kernel := true

/-- The image is made without the module. -/
theorem not_stopsOnFailure :
    ¬ ∀ (env : Env Unit) (order : Text) (mo : Text → Option (DirTree Unit)),
      StopsOnFailure env order mo := by
  intro h
  have hiso := (h failingEnv "base\n".toList fun _ => none).failure (by decide)
  revert hiso
  decide

end Backpack.Build
