import Backpack.Boot.Insert

/-!
# Modules that cannot be inserted

The success of a step reaches `union_insert_modules` as the status of the last command of a
function. The functions are modelled here with their statuses and what they print, for any
pattern of failures of `mount` and `unionctl`.
-/

namespace Backpack.Boot

open Shell

namespace Status

/-! ## The functions with their statuses -/

/-- Whether `mount` and `unionctl` succeed for one module. -/
structure Attempt where
  mounts : Bool
  inserts : Bool
deriving DecidableEq

/-- Both have to. -/
def Attempt.succeeds (a : Attempt) : Bool := a.mounts && a.inserts

/-- What there is in the destination folder, what is mounted where (last one first), the
read-only branches of the union (index 1 first) and the contents of `/tmp/_mounts`. -/
structure Stack where
  existing : List Text
  mounted : List (Text × Text)
  branches : List Text
  log : Text
deriving DecidableEq

/-- A finished call of `union_insert_module`, with what it printed. -/
structure Call where
  module : Text
  attempt : Attempt
  target : Text
  stdout : Text
  stderr : Text
  status : ℕ
deriving DecidableEq

/-- `mount_module`. The status is that of the `echo`. -/
def mountModule (mounts : Bool) (mod target : Text) (s : Stack) : Stack × ℕ :=
  ({ s with
      mounted := if mounts then (mod, target) :: s.mounted else s.mounted
      log := s.log ++ mod ++ ' ' :: target ++ ['\n'] }, 0)

/-- `union_insert_dir` -/
def unionInsertDir (inserts : Bool) (target : Text) (s : Stack) : Stack × ℕ :=
  if inserts then ({ s with branches := target :: s.branches }, 0) else (s, 1)

def unreadable : Text := "    !!! Can't read module data. corrupted download?\n".toList

def notInserted : Text := "    !!! Can't insert module into UnionFS\n".toList

/-- `union_insert_module` -/
def unionInsertModule (images mod : Text) (a : Attempt) (s : Stack) : Stack × Call :=
  let target := freshTarget s.existing (s.existing.length + 1) (images ++ '/' :: basename [mod])
  let s := { s with existing := target :: s.existing }
  let (s, err) := mountModule a.mounts mod target s
  if err ≠ 0 then (s, ⟨mod, a, target, [], unreadable, 1⟩)
  else
    let (s, err) := unionInsertDir a.inserts target s
    if err ≠ 0 then (s, ⟨mod, a, target, [], notInserted, 1⟩)
    else (s, ⟨mod, a, target, basename [target] ++ ['\n'], [], 0⟩)

/-- The loop of `union_insert_modules`, with the calls it makes. -/
def insertAll (images : Text) : List (Text × Attempt) → Stack → Stack × List Call
  | [], s => (s, [])
  | (mod, a) :: jobs, s =>
    let (s, c) := unionInsertModule images mod a s
    let (s, cs) := insertAll images jobs s
    (s, c :: cs)

/-- `union_insert_modules`, where `modules` is the output of `list_modules` and `k i` decides about
the module number `i`. -/
def unionInsertModules (k : ℕ → Attempt) (images modules : Text) (s : Stack) :
    Stack × List Call :=
  insertAll images ((readValues modules).zipIdx.map fun p => (p.1, k p.2)) s

/-! ## What is expected -/

/-- The full path of a module, as `list_modules` prints it. -/
structure ModuleFile where
  path : Text
  word : IsWord path
  absolute : path.head? = some '/'
  named : lastComponent path ≠ []

/-- What a run leaves, where `ok` tells which attempts count as a success: the branches, the
directories, the output and the statuses. -/
structure Reports (ok : Attempt → Bool) (jobs : List (Text × Attempt)) (s : Stack)
    (r : Stack × List Call) : Prop where
  calls : r.2.map (fun c => (c.module, c.attempt)) = jobs
  branches : r.1.branches = ((r.2.filter fun c => ok c.attempt).map (·.target)).reverse ++ s.branches
  mounted : r.1.mounted =
    ((r.2.filter (·.attempt.mounts)).map fun c => (c.module, c.target)).reverse ++ s.mounted
  existing : r.1.existing = (r.2.map (·.target)).reverse ++ s.existing
  own : (r.2.map (·.target)).Nodup ∧ ∀ c ∈ r.2, c.target ∉ s.existing
  status : ∀ c ∈ r.2, c.status = 0 ↔ ok c.attempt = true
  stdout : ∀ c ∈ r.2, c.stdout = if ok c.attempt then lastComponent c.target ++ ['\n'] else []

/-! ## What a run does -/

/-- The target that is found begins with the one asked for. -/
theorem freshTarget_starts (existing : List Text) (fuel : ℕ) (target : Text) :
    target <+: freshTarget existing fuel target := by
  induction fuel generalizing target with
  | zero => exact List.prefix_refl target
  | succ fuel ih =>
    unfold freshTarget
    split_ifs
    · exact (List.prefix_append _ _).trans (ih _)
    · exact List.prefix_refl target

section

variable {images : Text}

/-- One call. The status of `mount_module` is always zero, so only `unionctl` counts. -/
theorem unionInsertModule_eq (mod : Text) (a : Attempt) (s : Stack) : ∃ target,
    target ∉ s.existing ∧ images ++ ['/'] <+: target ∧
    (unionInsertModule images mod a s).1 =
      { existing := target :: s.existing
        mounted := if a.mounts then (mod, target) :: s.mounted else s.mounted
        branches := if a.inserts then target :: s.branches else s.branches
        log := s.log ++ mod ++ ' ' :: target ++ ['\n'] } ∧
    (unionInsertModule images mod a s).2 =
      if a.inserts then ⟨mod, a, target, basename [target] ++ ['\n'], [], 0⟩
      else ⟨mod, a, target, [], notInserted, 1⟩ := by
  refine ⟨freshTarget s.existing (s.existing.length + 1) (images ++ '/' :: basename [mod]),
    freshTarget_not_mem _ _, ?_, ?_, ?_⟩
  · refine List.IsPrefix.trans ?_ (freshTarget_starts _ _ _)
    exact ⟨basename [mod], by simp⟩
  · cases hinserts : a.inserts <;> simp [unionInsertModule, mountModule, unionInsertDir, hinserts]
  · cases hinserts : a.inserts <;> simp [unionInsertModule, mountModule, unionInsertDir, hinserts]

theorem reports_nil (ok : Attempt → Bool) (s : Stack) : Reports ok [] s (s, []) := by
  have hnone : ∀ c, c ∉ ([] : List Call) := fun c => List.not_mem_nil
  exact ⟨rfl, rfl, rfl, rfl, ⟨List.nodup_nil, fun c hc => absurd hc (hnone c)⟩,
    fun c hc => absurd hc (hnone c), fun c hc => absurd hc (hnone c)⟩

/-- A call in front of a run that reports what it did. -/
theorem Reports.cons {ok : Attempt → Bool} {jobs : List (Text × Attempt)} {s s₁ : Stack}
    {r : Stack × List Call} (h : Reports ok jobs s₁ r) {c : Call}
    (hbranches : s₁.branches = if ok c.attempt then c.target :: s.branches else s.branches)
    (hmounted : s₁.mounted =
      if c.attempt.mounts then (c.module, c.target) :: s.mounted else s.mounted)
    (hexisting : s₁.existing = c.target :: s.existing) (hfresh : c.target ∉ s.existing)
    (hstatus : c.status = 0 ↔ ok c.attempt = true)
    (hstdout : c.stdout = if ok c.attempt then lastComponent c.target ++ ['\n'] else []) :
    Reports ok ((c.module, c.attempt) :: jobs) s (r.1, c :: r.2) where
  calls := by rw [List.map_cons, h.calls]
  branches := by
    rw [h.branches, hbranches]
    cases hok : ok c.attempt with
    | true => simp [hok]
    | false => simp [hok]
  mounted := by
    rw [h.mounted, hmounted]
    cases hmounts : c.attempt.mounts with
    | true => simp [hmounts]
    | false => simp [hmounts]
  existing := by
    rw [h.existing, hexisting]
    simp
  own := by
    have hown := h.own
    rw [hexisting] at hown
    refine ⟨?_, ?_⟩
    · rw [List.map_cons, List.nodup_cons]
      refine ⟨?_, hown.1⟩
      intro hmem
      obtain ⟨d, hlater, htarget⟩ := List.mem_map.mp hmem
      exact hown.2 d hlater (htarget ▸ List.mem_cons_self)
    · rw [List.forall_mem_cons]
      exact ⟨hfresh, fun d hlater hmem => hown.2 d hlater (List.mem_cons_of_mem _ hmem)⟩
  status := List.forall_mem_cons.mpr ⟨hstatus, h.status⟩
  stdout := List.forall_mem_cons.mpr ⟨hstdout, h.stdout⟩

/-- A path below an absolute directory is no option. -/
theorem basename_absolute (himages : images.head? = some '/') {target : Text}
    (hbelow : images ++ ['/'] <+: target) : basename [target] = lastComponent target := by
  obtain ⟨d, ds, rfl⟩ : ∃ d ds, images = d :: ds := by
    cases images with
    | nil => exact absurd himages (by simp)
    | cons d ds => exact ⟨d, ds, rfl⟩
  obtain rfl : d = '/' := by simpa using himages
  obtain ⟨w, rfl⟩ := hbelow
  simp [basename, isOption]

/-- A whole run: a module counts as inserted when `unionctl` succeeds. -/
theorem insertAll_reports (himages : images.head? = some '/') (jobs : List (Text × Attempt))
    (s : Stack) : Reports Attempt.inserts jobs s (insertAll images jobs s) := by
  induction jobs generalizing s with
  | nil => exact reports_nil _ s
  | cons job jobs ih =>
    obtain ⟨mod, a⟩ := job
    obtain ⟨target, hfresh, hprefix, hs, hc⟩ := @unionInsertModule_eq images mod a s
    have hname := basename_absolute himages hprefix
    have hrest := ih (unionInsertModule images mod a s).1
    have hrun : insertAll images ((mod, a) :: jobs) s =
        ((insertAll images jobs (unionInsertModule images mod a s).1).1,
          (unionInsertModule images mod a s).2 ::
            (insertAll images jobs (unionInsertModule images mod a s).1).2) := rfl
    rw [hrun, hc]
    cases hinserts : a.inserts with
    | true =>
      rw [hinserts, if_pos rfl] at hs
      refine hrest.cons (c := ⟨mod, a, target, basename [target] ++ ['\n'], [], 0⟩) ?_ ?_ ?_ hfresh
        ?_ ?_
      · simp [hs, hinserts]
      · simp [hs]
      · simp [hs]
      · simp [hinserts]
      · simp [hinserts, hname]
    | false =>
      refine hrest.cons (c := ⟨mod, a, target, [], notInserted, 1⟩) ?_ ?_ ?_ hfresh ?_ ?_
      · simp [hs, hinserts]
      · simp [hs]
      · simp [hs]
      · simp [hinserts]
      · simp [hinserts]

/-- The branches that the model over contents has are those of a run, in which a mount succeeds where
it shows something. -/
theorem foldl_insertModule_eq {α : Type} (m : Mounter α) {ps : List Text}
    (hps : ∀ p ∈ ps, words p = [p]) {t : Images α} {s : Stack} (hexisting : t.existing = s.existing)
    (hbranches : t.branches.map (·.target) = s.branches) : ∃ attempts : List Attempt,
      attempts.map (·.mounts) = ps.map (fun p => (m.mount p).isSome) ∧
      (ps.foldl (insertModule m images) t).existing =
        (insertAll images (ps.zip attempts) s).1.existing ∧
      (ps.foldl (insertModule m images) t).branches.map (·.target) =
        (insertAll images (ps.zip attempts) s).1.branches := by
  induction ps generalizing t s with
  | nil => exact ⟨[], rfl, hexisting, hbranches⟩
  | cons p ps ih =>
    let a : Attempt := ⟨(m.mount p).isSome, m.inserts
      (freshTarget s.existing (s.existing.length + 1) (images ++ '/' :: basename [p]))⟩
    have hword : words p = [p] := hps p List.mem_cons_self
    have hstep : (insertModule m images t p).existing =
          (unionInsertModule images p a s).1.existing ∧
        (insertModule m images t p).branches.map (·.target) =
          (unionInsertModule images p a s).1.branches := by
      cases hinserts : a.inserts with
      | true =>
        have hins := hinserts
        simp only [a] at hins
        simp [insertModule, unionInsertModule, mountModule, unionInsertDir, hword, hexisting,
          hbranches, hinserts, hins]
      | false =>
        have hins := hinserts
        simp only [a] at hins
        simp [insertModule, unionInsertModule, mountModule, unionInsertDir, hword, hexisting,
          hbranches, hinserts, hins]
    obtain ⟨attempts, hmounts, hrun⟩ :=
      ih (fun q hq => hps q (List.mem_cons_of_mem p hq)) hstep.1 hstep.2
    exact ⟨a :: attempts, by simp [a, hmounts], hrun⟩

end

/-! ## Runs that report every failure -/

/-- All are reported right when each insertion went as its status says. -/
theorem reports_succeeds_iff {images : Text} (himages : images.head? = some '/')
    (jobs : List (Text × Attempt)) (s : Stack) :
    Reports Attempt.succeeds jobs s (insertAll images jobs s) ↔
      ∀ job ∈ jobs, job.2.succeeds = job.2.inserts := by
  have hrun := insertAll_reports himages jobs s
  have hjobs : ∀ job, job ∈ jobs ↔
      ∃ c ∈ (insertAll images jobs s).2, (c.module, c.attempt) = job := by
    intro job
    rw [← List.mem_map, hrun.calls]
  constructor
  · intro h job hjob
    obtain ⟨c, hc, rfl⟩ := (hjobs job).mp hjob
    rw [Bool.eq_iff_iff]
    exact (h.status c hc).symm.trans (hrun.status c hc)
  · intro h
    have hok : ∀ c ∈ (insertAll images jobs s).2, c.attempt.inserts = c.attempt.succeeds :=
      fun c hc => (h _ ((hjobs _).mpr ⟨c, hc, rfl⟩)).symm
    exact {
      hrun with
      branches := by rw [hrun.branches, List.filter_congr hok]
      status := fun c hc => hok c hc ▸ hrun.status c hc
      stdout := fun c hc => hok c hc ▸ hrun.stdout c hc }

/-- A failed mount is reported exactly when the insertion fails, too. -/
theorem unionInsertModules_reports_iff (k : ℕ → Attempt) {images : Text}
    (himages : images.head? = some '/') (mods : List ModuleFile) (s : Stack) :
    Reports Attempt.succeeds ((mods.map (·.path)).zipIdx.map fun p => (p.1, k p.2)) s
        (unionInsertModules k images (unlines (mods.map (·.path))) s) ↔
      ∀ i < mods.length, (k i).mounts = false → (k i).inserts = false := by
  have hread : readValues (unlines (mods.map (·.path))) = mods.map (·.path) := by
    refine readValues_unlines fun p hp => ?_
    obtain ⟨mod, -, rfl⟩ := List.mem_map.mp hp
    exact mod.word
  have hattempt : ∀ a : Attempt, a.succeeds = a.inserts ↔ (a.mounts = false → a.inserts = false) := by
    rintro ⟨mounts, inserts⟩
    cases mounts <;> cases inserts <;> decide
  rw [unionInsertModules, hread, reports_succeeds_iff himages]
  simp only [List.forall_mem_map, hattempt]
  constructor
  · intro h i hi
    have hmem : (mods[i].path, i) ∈ (mods.map (·.path)).zipIdx := by
      rw [List.mem_zipIdx_iff_getElem?, List.getElem?_map, List.getElem?_eq_getElem hi]
      rfl
    exact h _ hmem
  · intro h p hp
    obtain ⟨hlt, -⟩ := List.getElem?_eq_some_iff.mp (List.mem_zipIdx_iff_getElem?.mp hp)
    exact h p.2 (by simpa using hlt)

def imagesDir : Text := "/mnt/live/memory/images".toList

def kdeFile : ModuleFile := ⟨"/mnt/hdc/base/kde.mo".toList, by decide, by decide, by decide⟩

def otherKdeFile : ModuleFile :=
  ⟨"/mnt/hdc/modules/kde.mo".toList, by decide, by decide, by decide⟩

def noStack : Stack := ⟨[], [], [], []⟩

def secondFails (i : ℕ) : Attempt := if i = 1 then ⟨false, false⟩ else ⟨true, true⟩

/-- The second of three modules is corrupted, and `unionctl` refuses its empty directory. -/
theorem unionInsertModules_reports_corrupted : imagesDir.head? = some '/' ∧
    (∀ i < 3, (secondFails i).mounts = false → (secondFails i).inserts = false) ∧
    Reports Attempt.succeeds
      (([kdeFile, otherKdeFile, kdeFile].map (·.path)).zipIdx.map fun p => (p.1, secondFails p.2))
      noStack (unionInsertModules secondFails imagesDir
        (unlines ([kdeFile, otherKdeFile, kdeFile].map (·.path))) noStack) := by
  have himages : imagesDir.head? = some '/' := by decide
  have hfails : ∀ i < 3, (secondFails i).mounts = false → (secondFails i).inserts = false := by
    decide
  exact ⟨himages, hfails, (unionInsertModules_reports_iff secondFails himages
    [kdeFile, otherKdeFile, kdeFile] noStack).mpr hfails⟩

/-- The mount fails, the insertion of the empty directory does not. -/
theorem not_unionInsertModules_reports : ¬ ∀ (k : ℕ → Attempt) (images : Text),
    images.head? = some '/' → ∀ (mods : List ModuleFile) (s : Stack),
      Reports Attempt.succeeds ((mods.map (·.path)).zipIdx.map fun p => (p.1, k p.2)) s
        (unionInsertModules k images (unlines (mods.map (·.path))) s) := by
  intro h
  have hrun := h (fun _ => ⟨false, true⟩) imagesDir (by decide) [kdeFile] noStack
  have hbranches := hrun.branches
  exact absurd hbranches (by decide)

end Status

end Backpack.Boot
