import Backpack.Build.SlackwareCache
import Backpack.Shell.Test

/-!
# The Dropline and extra caches

Two more update loops of `compile.sh`. Both read the names of the outdated files into one variable,
which is put behind the directory: with several names only the first one gets it. The second loop
looks for the outdated file in the working directory before it removes it. The patterns of both are
not quoted, so the shell looks for names that match them before `grep` sees them. Downloads succeed.
-/

namespace Backpack.Build

open Shell

/-- The names in the working directory and in `dropline$bits` or `extra$bits`, what the files of the
working directory hold, and what was passed to `rm` and what was fetched. -/
structure Folder where
  cwd : List Text
  text : Text → Text
  files : List Text
  passed : List Text
  fetched : List Text

/-- A word without the backslashes that quote its characters. -/
def unquoted (w : Text) : Text := w.filter (· ≠ '\\')

/-- The arguments that an unquoted pattern becomes: the names in the working directory that match
it, or itself when there is none. -/
def Folder.expand (s : Folder) (pat : Text) : List Text :=
  if s.cwd.filter (pathMatch pat) = [] then [unquoted pat]
  else lsSort (s.cwd.filter (pathMatch pat))

/-- `ls dir | grep -E pat` -/
def lsGrep (pat : Text) (files : List Text) : List Text :=
  grep .extended pat (unlines (lsSort (files.filter fun f => f.head? ≠ some '.')))

/-- `ls dir | grep -E args`: files that are named behind the pattern are searched in place of the
list, and if they are several each line has its file in front. -/
def Folder.lsGrep (s : Folder) : List Text → List Text
  | [] => []
  | [pat] => Build.lsGrep pat s.files
  | [pat, f] => grep .extended pat (s.text f)
  | pat :: fs => fs.flatMap fun f => (grep .extended pat (s.text f)).map fun l => f ++ ':' :: l

/-- `rm path`: the path is one of the directory `dir`, or a name in the working directory. -/
def Folder.rm (dir : Text) (s : Folder) (path : Text) : Folder :=
  { s with
    cwd := s.cwd.filter fun f => f ≠ path
    files := s.files.filter fun f => dir ++ '/' :: f ≠ path
    passed := s.passed ++ [path] }

/-- `wget -nc -P dir "${MIRROR}$LINE"` -/
def Folder.wget (s : Folder) (line : Text) : Folder :=
  { s with files := lastComponent line :: s.files, fetched := s.fetched ++ [line] }

/-- What `[` is told of a file. -/
def Folder.tests (dir : Text) (s : Folder) : SystemTests := fun op paths =>
  if op = "-e".toList then paths.head?.map fun path => decide (path ∈ s.cwd ++ s.files.map
    fun f => dir ++ '/' :: f)
  else none

/-! ## The Dropline loop -/

/-- `^${DELETE}\-[[:digit:]I]`, unquoted -/
def droplinePattern (base : Text) : Text := '^' :: (stem base ++ "\\-[[:digit:]I]".toList)

/-- `cat dropline$bits/$DroplineFilesVersion|grep -v ':replaced:'|cut -d: -s -f 1` -/
def droplineNames (list : Text) : Text :=
  unlines ((((fileLines list).filter fun l => !grepLine .basic ":replaced:".toList l).filter
    fun l => ':' ∈ l).map (cutFirst ':'))

/-- One line of the list. -/
def droplineStep (dir : Text) (s : Folder) (line : Text) : Folder :=
  if bashTest (s.tests dir) ["-n".toList, line, "-a".toList, "!".toList, "-e".toList,
      dir ++ '/' :: line] = some true then
    let delete := captured (unlines (s.lsGrep (s.expand (droplinePattern line))))
    let s := if delete ≠ [] then (words (dir ++ '/' :: delete)).foldl (Folder.rm dir) s else s
    s.wget line
  else s

/-! ## The extra loop -/

/-- `${DELETE}\-[[:digit:]I]`, unquoted -/
def extraPattern (base : Text) : Text := stem base ++ "\\-[[:digit:]I]".toList

/-- `cat extra$bits/urls.txt|grep -v -E '^[[:space:]]*#|^[[:space:]]*$'` -/
def extraUrls (list : Text) : Text :=
  unlines ((fileLines list).filter fun l =>
    !grepLine .extended "^[[:space:]]*#|^[[:space:]]*$".toList l)

/-- One line of the list. -/
def extraStep (dir : Text) (s : Folder) (line : Text) : Folder :=
  if bashTest (s.tests dir) ["-n".toList, line, "-a".toList, (line.drop 1).take 1, "!=".toList,
      ['#']] = some true then
    let base := basename (words line)
    if base ∉ s.files then
      let delete := captured (unlines (s.lsGrep (s.expand (extraPattern base))))
      let s :=
        if bashTest (s.tests dir) ["-n".toList, delete, "-a".toList, "-e".toList, delete] =
          some true then (words (dir ++ '/' :: delete)).foldl (Folder.rm dir) s
        else s
      s.wget line
    else s
  else s

/-! ## What is expected -/

/-- `base` and `f` are files of one package. -/
def IsVersionOf (base f : Text) : Prop := ∃ name, IsFileOf name base ∧ IsFileOf name f

/-- What is passed to `rm` is in the directory and a version of the package, and a version that is
fetched is the only one there. -/
structure Renews (dir base : Text) (s s' : Folder) : Prop where
  inside : ∃ ps, s'.passed = s.passed ++ ps ∧
    ∀ p ∈ ps, ∃ f, '/' ∉ f ∧ p = dir ++ '/' :: f ∧ IsVersionOf base f
  alone : s'.fetched ≠ s.fetched → ∀ f ∈ s'.files, IsVersionOf base f → f = base

/-- A name that the commands take as it is. -/
def IsFileName (f : Text) : Prop := IsWord f ∧ f ≠ [] ∧ '/' ∉ f ∧ f.head? ≠ some '-'

instance (f : Text) : Decidable (IsFileName f) := inferInstanceAs (Decidable (_ ∧ _ ∧ _ ∧ _))

/-- An address whose last part names a file. -/
def IsUrl (line : Text) : Prop :=
  IsWord line ∧ isOption line = false ∧ line ≠ [] ∧ IsFileName (lastComponent line)

instance (line : Text) : Decidable (IsUrl line) := inferInstanceAs (Decidable (_ ∧ _ ∧ _ ∧ _))

/-- basename gives what stands after the last slash. -/
theorem IsUrl.basename_eq {line : Text} (h : IsUrl line) :
    basename (words line) = lastComponent line :=
  basename_words h.1.noBlank h.2.2.1 h.2.1

/-- The contents of the directories. -/
structure Folder.Plain (s : Folder) : Prop where
  cwd : ∀ f ∈ s.cwd, '\n' ∉ f ∧ '/' ∉ f
  files : ∀ f ∈ s.files, IsFileName f
  nodup : s.files.Nodup

/-- `ls dir | grep -E pat` prints `f` when it is there. -/
def FoundBy (pat f : Text) : Prop := f.head? ≠ some '.' ∧ grepLine .extended pat f = true

instance (pat f : Text) : Decidable (FoundBy pat f) := inferInstanceAs (Decidable (_ ∧ _))

/-- No name in the working directory takes the place of the pattern. -/
def Unexpanded (s : Folder) (pat : Text) : Prop := ∀ f ∈ s.cwd, pathMatch pat f = false

instance (s : Folder) (pat : Text) : Decidable (Unexpanded s pat) :=
  inferInstanceAs (Decidable (∀ f ∈ s.cwd, _))

/-- The pattern reaches `grep`, which searches the list of `ls`. -/
theorem lsGrep_expand {s : Folder} {pat : Text} (h : Unexpanded s pat) :
    s.lsGrep (s.expand pat) = lsGrep (unquoted pat) s.files := by
  have hnone : s.cwd.filter (pathMatch pat) = [] := by
    rw [List.filter_eq_nil_iff]
    intro f hf
    simp [h f hf]
  rw [Folder.expand, if_pos hnone]
  rfl

/-! ## The outdated files -/

section

variable {pat dir : Text} {s : Folder}

/-- ls and grep give the files that the pattern finds. -/
theorem mem_lsGrep (hs : s.Plain) {f : Text} :
    f ∈ lsGrep pat s.files ↔ f ∈ s.files ∧ FoundBy pat f := by
  have hls : ∀ g ∈ lsSort (s.files.filter fun f => f.head? ≠ some '.'), '\n' ∉ g := by
    intro g hg
    exact (hs.files g (List.mem_of_mem_filter ((lsSort_perm _).mem_iff.mp hg))).1.no_newline
  rw [lsGrep, grep, fileLines_unlines hls, List.mem_filter, (lsSort_perm _).mem_iff,
    List.mem_filter, decide_eq_true_eq, FoundBy, and_assoc]

theorem lsGrep_nodup (hs : s.Plain) : (lsGrep pat s.files).Nodup := by
  have hls : ∀ g ∈ lsSort (s.files.filter fun f => f.head? ≠ some '.'), '\n' ∉ g := by
    intro g hg
    exact (hs.files g (List.mem_of_mem_filter ((lsSort_perm _).mem_iff.mp hg))).1.no_newline
  rw [lsGrep, grep, fileLines_unlines hls]
  exact ((lsSort_perm _).nodup_iff.mpr (hs.nodup.filter _)).filter _

/-- No output means no file is found. -/
theorem not_foundBy_of_lsGrep_nil (hs : s.Plain) (h : lsGrep pat s.files = []) :
    ∀ f ∈ s.files, ¬ FoundBy pat f := by
  intro f hf hfinds
  have hin := (mem_lsGrep hs).mpr ⟨hf, hfinds⟩
  rw [h] at hin
  exact List.not_mem_nil hin

/-- One line of output means one file is found. -/
theorem foundBy_of_lsGrep_singleton (hs : s.Plain) {f : Text} (h : lsGrep pat s.files = [f]) :
    f ∈ s.files ∧ ∀ g ∈ s.files, FoundBy pat g ↔ g = f := by
  have hmem : ∀ g, g = f ↔ g ∈ s.files ∧ FoundBy pat g := by
    intro g
    rw [← mem_lsGrep hs, h, List.mem_singleton]
  exact ⟨((hmem f).mp rfl).1, fun g hg => (and_iff_right hg).symm.trans (hmem g).symm⟩

/-- The pattern finds two files when more than one name is printed. -/
theorem two_of_lsGrep (hs : s.Plain) {f g : Text} {gs : List Text}
    (h : lsGrep pat s.files = f :: g :: gs) :
    (f ∈ s.files ∧ FoundBy pat f) ∧ (g ∈ s.files ∧ FoundBy pat g) ∧ f ≠ g := by
  have hnodup := @lsGrep_nodup pat s hs
  refine ⟨(mem_lsGrep hs).mp (by simp [h]), (mem_lsGrep hs).mp (by simp [h]), ?_⟩
  rintro rfl
  rw [h] at hnodup
  exact (List.nodup_cons.mp hnodup).1 List.mem_cons_self

/-- The variable has a name in it. -/
theorem captured_names_ne_nil {f : Text} (hf : IsFileName f) (fs : List Text) :
    captured (unlines (f :: fs)) ≠ [] := by
  obtain ⟨c, g, rfl⟩ := List.exists_cons_of_ne_nil hf.2.1
  intro h
  have hc := captured_eq_nil_iff.mp h c (by simp [unlines])
  exact hf.1.no_newline (hc ▸ List.mem_cons_self)

/-- Two names are no name. -/
theorem newline_mem_captured {f g : Text} {gs : List Text} (hg : IsFileName g) :
    '\n' ∈ captured (unlines (f :: g :: gs)) := by
  have hsplit : unlines (f :: g :: gs) = (f ++ ['\n']) ++ unlines (g :: gs) := by simp [unlines]
  rw [hsplit, captured_append (captured_names_ne_nil hg gs)]
  simp

/-- Only the first name gets the directory in front of it. -/
theorem words_names (hdir : IsWord dir) {f : Text} {fs : List Text} (hf : IsFileName f)
    (hfs : ∀ g ∈ fs, IsFileName g) :
    words (dir ++ '/' :: captured (unlines (f :: fs))) = (dir ++ '/' :: f) :: fs := by
  have hpath : NoBlank (dir ++ '/' :: f) := (hdir.append (hf.1.cons (by decide))).noBlank
  have hsplit : (dir ++ ['/']) ++ unlines (f :: fs) = (dir ++ '/' :: f) ++ '\n' :: unlines fs := by
    simp [unlines]
  have hslash : dir ++ '/' :: captured (unlines (f :: fs)) =
      (dir ++ ['/']) ++ captured (unlines (f :: fs)) := by simp
  rw [hslash, words_append_captured, hsplit, words_append_blank hpath (by simp) rfl,
    words_unlines fun g hg => ⟨(hfs g hg).1.noBlank, (hfs g hg).2.1⟩]

/-! ## Removing and fetching -/

/-- rm takes the files that are named, in the directory and in the working directory. -/
theorem foldl_rm_path (paths : List Text) : paths.foldl (Folder.rm dir) s =
    { cwd := s.cwd.filter fun f => f ∉ paths
      text := s.text
      files := s.files.filter fun f => dir ++ '/' :: f ∉ paths
      passed := s.passed ++ paths
      fetched := s.fetched } := by
  induction paths generalizing s with
  | nil => simp
  | cons path paths ih =>
    rw [List.foldl_cons, ih, Folder.rm]
    simp only [List.filter_filter, List.mem_cons, not_or, List.append_assoc, List.singleton_append]
    congr 1
    · refine List.filter_congr fun f _ => ?_
      simp [Bool.and_comm]
    · refine List.filter_congr fun f _ => ?_
      simp [Bool.and_comm]

/-- What a turn has to do that passes `paths` to `rm` and fetches `line`. -/
theorem renews_iff {line : Text} (hline : lastComponent line ∉ s.files) (paths : List Text) :
    Renews dir (lastComponent line) s ((paths.foldl (Folder.rm dir) s).wget line) ↔
      (∀ p ∈ paths, ∃ f, '/' ∉ f ∧ p = dir ++ '/' :: f ∧ IsVersionOf (lastComponent line) f) ∧
        ∀ f ∈ s.files, IsVersionOf (lastComponent line) f → dir ++ '/' :: f ∈ paths := by
  rw [foldl_rm_path]
  constructor
  · rintro ⟨⟨ps, hps, hinside⟩, halone⟩
    rw [Folder.wget] at hps halone
    obtain rfl : paths = ps := List.append_cancel_left hps
    refine ⟨hinside, fun f hf hversion => ?_⟩
    by_contra hnot
    have hfile : f ∈ lastComponent line :: s.files.filter fun f => dir ++ '/' :: f ∉ paths := by
      simp [hf, hnot]
    have heq := halone (by simp) f hfile hversion
    exact hline (heq ▸ hf)
  · rintro ⟨hinside, hall⟩
    refine ⟨⟨paths, rfl, hinside⟩, fun _ f hf hversion => ?_⟩
    rcases List.mem_cons.mp hf with rfl | hf
    · rfl
    · obtain ⟨hf, hnot⟩ := List.mem_filter.mp hf
      exact absurd (hall f hf hversion) (by simpa using hnot)

/-- Only the first path of several is one of the directory. -/
theorem renews_names_iff {line f : Text} {fs : List Text} (hline : lastComponent line ∉ s.files)
    (hf : IsFileName f) (hfs : ∀ g ∈ fs, IsFileName g) :
    Renews dir (lastComponent line) s
        ((((dir ++ '/' :: f) :: fs).foldl (Folder.rm dir) s).wget line) ↔
      fs = [] ∧ IsVersionOf (lastComponent line) f ∧
        ∀ g ∈ s.files, IsVersionOf (lastComponent line) g → g = f := by
  have hinj : ∀ {g h : Text}, dir ++ '/' :: g = dir ++ '/' :: h → g = h := fun heq =>
    (List.cons.inj (List.append_cancel_left heq)).2
  rw [renews_iff hline]
  constructor
  · rintro ⟨hinside, hall⟩
    have hnil : fs = [] := by
      cases fs with
      | nil => rfl
      | cons g gs =>
        obtain ⟨h, -, hpath, -⟩ := hinside g (by simp)
        exact absurd (by simp [hpath]) (hfs g List.mem_cons_self).2.2.1
    subst hnil
    obtain ⟨g, -, hpath, hversion⟩ := hinside _ List.mem_cons_self
    obtain rfl := hinj hpath
    refine ⟨rfl, hversion, fun g hg hversion' => ?_⟩
    exact hinj (List.mem_singleton.mp (hall g hg hversion'))
  · rintro ⟨rfl, hversion, hall⟩
    refine ⟨fun p hp => ⟨f, hf.2.2.1, List.mem_singleton.mp hp, hversion⟩, fun g hg hversion' => ?_⟩
    rw [hall g hg hversion']
    exact List.mem_singleton_self _

/-- Without rm, the cache is renewed when there was no version. -/
theorem renews_nothing_iff {line : Text} (hline : lastComponent line ∉ s.files) :
    Renews dir (lastComponent line) s (s.wget line) ↔
      ∀ f ∈ s.files, ¬ IsVersionOf (lastComponent line) f := by
  have h := @renews_iff dir s line hline []
  simpa using h

/-- Doing nothing renews nothing. -/
theorem renews_refl (base : Text) : Renews dir base s s :=
  ⟨⟨[], by simp⟩, fun h => absurd rfl h⟩

end

/-! ## The conditions for one line -/

/-- The pattern finds the other versions of the package and nothing else, and there is at most one
of them. -/
def OneOutdated (s : Folder) (base : Text) : Prop :=
  (∀ f ∈ s.files, FoundBy (unquoted (droplinePattern base)) f ↔ IsVersionOf base f) ∧
    ∀ f ∈ s.files, ∀ g ∈ s.files, FoundBy (unquoted (droplinePattern base)) f →
      FoundBy (unquoted (droplinePattern base)) g → f = g

/-- The loop looks for outdated files. -/
def DroplineTurn (s : Folder) (line : Text) : Prop :=
  line ∉ "==".toList :: binaryOps ∧ line ≠ [] ∧ line ∉ s.files

/-- The line is in the cache, or its outdated files are as the loop takes them. -/
def DroplineFits (s : Folder) (line : Text) : Prop :=
  DroplineTurn s line → Unexpanded s (droplinePattern line) ∧ OneOutdated s line

/-- `f` is the only file that the pattern finds, and the working directory has one of that name. -/
def OnlyFound (s : Folder) (base f : Text) : Prop :=
  f ∉ "==".toList :: binaryOps ∧ f ∈ s.cwd ∧
    ∀ g ∈ s.files, FoundBy (unquoted (extraPattern base)) g ↔ g = f

/-- The loop looks for outdated files. -/
def ExtraTurn (s : Folder) (line : Text) : Prop :=
  (line ∉ "==".toList :: binaryOps ∧ line ≠ [] ∧ (line.drop 1).take 1 ∉ [['#'], ['!'], ['(']]) ∧
    lastComponent line ∉ s.files

/-- The file that would be removed is the only other version, or there is neither. -/
def ExtraFits (s : Folder) (line : Text) : Prop :=
  ExtraTurn s line → Unexpanded s (extraPattern (lastComponent line)) ∧
    ∀ f ∈ s.files, OnlyFound s (lastComponent line) f ↔ IsVersionOf (lastComponent line) f

/-! ## One turn -/

section

variable {dir line : Text} {s : Folder} (hdir : IsWord dir) (hs : s.Plain)
include hs

/-- The names that the pattern finds are those of the files. -/
theorem names_of_lsGrep {pat f : Text} {fs : List Text} (h : lsGrep pat s.files = f :: fs) :
    IsFileName f ∧ ∀ g ∈ fs, IsFileName g := by
  have hmem : ∀ g ∈ f :: fs, IsFileName g := by
    intro g hg
    rw [← h] at hg
    exact hs.files g ((mem_lsGrep hs).mp hg).1
  exact List.forall_mem_cons.mp hmem

/-- `[ -e dir/f ]`, where no name in the working directory has a slash. -/
theorem tests_dir (f : Text) :
    s.tests dir "-e".toList [dir ++ '/' :: f] = some (decide (f ∈ s.files)) := by
  have hmem : dir ++ '/' :: f ∈ s.cwd ++ s.files.map (fun g => dir ++ '/' :: g) ↔ f ∈ s.files := by
    rw [List.mem_append, List.mem_map]
    constructor
    · rintro (hcwd | ⟨g, hg, heq⟩)
      · exact absurd (by simp) (hs.cwd _ hcwd).2
      · rwa [← (List.cons.inj (List.append_cancel_left heq)).2]
    · exact fun hf => Or.inr ⟨f, hf, rfl⟩
  simp only [Folder.tests, if_true, List.head?_cons, Option.map_some, hmem]

/-- When the test of the Dropline loop holds. -/
theorem droplineTest_iff : bashTest (s.tests dir) ["-n".toList, line, "-a".toList, "!".toList,
    "-e".toList, dir ++ '/' :: line] = some true ↔ DroplineTurn s line := by
  rw [bashTest_not_exists (tests_dir hs line), decide_eq_false_iff_not, DroplineTurn]

include hdir in
/-- `[ -e name ]`, where a slash or a newline keeps the name apart from those in the directory. -/
theorem tests_cwd {name : Text} (hname : '/' ∉ name ∨ '\n' ∈ name) :
    s.tests dir "-e".toList [name] = some (decide (name ∈ s.cwd)) := by
  have hmem : name ∈ s.cwd ++ s.files.map (fun g => dir ++ '/' :: g) ↔ name ∈ s.cwd := by
    rw [List.mem_append, or_iff_left]
    rw [List.mem_map]
    rintro ⟨g, hg, rfl⟩
    rcases hname with hslash | hnewline
    · exact hslash (by simp)
    · exact (hdir.append ((hs.files g hg).1.cons (by decide))).no_newline hnewline
  simp only [Folder.tests, if_true, List.head?_cons, Option.map_some, hmem]

omit hs in
/-- When the test of the extra loop holds. -/
theorem extraTest_iff : bashTest (s.tests dir) ["-n".toList, line, "-a".toList,
    (line.drop 1).take 1, "!=".toList, ['#']] = some true ↔
      line ∉ "==".toList :: binaryOps ∧ line ≠ [] ∧
        (line.drop 1).take 1 ∉ [['#'], ['!'], ['(']] := by
  rw [bashTest_compare (Or.inr rfl) (by decide), ← List.isEmpty_eq_false_iff]
  simp only [List.mem_cons, List.not_mem_nil, or_false, not_or]
  exact Iff.rfl

include hdir

/-- A turn of the Dropline loop, by what the pattern finds. -/
theorem droplineStep_eq (hturn : DroplineTurn s line)
    (hpat : Unexpanded s (droplinePattern line)) :
    droplineStep dir s line =
      match lsGrep (unquoted (droplinePattern line)) s.files with
      | [] => s.wget line
      | f :: fs => (((dir ++ '/' :: f) :: fs).foldl (Folder.rm dir) s).wget line := by
  rw [droplineStep, if_pos ((droplineTest_iff hs).mpr hturn)]
  simp only [lsGrep_expand hpat]
  cases hfound : lsGrep (unquoted (droplinePattern line)) s.files with
  | nil => rfl
  | cons f fs =>
    obtain ⟨hf, hfs⟩ := names_of_lsGrep hs hfound
    simp only [if_pos (captured_names_ne_nil hf fs), words_names hdir hf hfs]

/-- A turn of the Dropline loop renews the cache when the line fits. -/
theorem droplineStep_renews_iff (hline : line = [] ∨ IsFileName line)
    (hpat : DroplineTurn s line → Unexpanded s (droplinePattern line)) :
    Renews dir line s (droplineStep dir s line) ↔ DroplineFits s line := by
  by_cases hturn : DroplineTurn s line
  · obtain ⟨-, hne, hmissing⟩ := id hturn
    have hname := hline.resolve_left hne
    have hlast : lastComponent line = line := lastComponent_of_no_slash hname.2.2.1
    have hpat := hpat hturn
    have hfits : DroplineFits s line ↔ OneOutdated s line :=
      ⟨fun h => (h hturn).2, fun h _ => ⟨hpat, h⟩⟩
    have hmissing' : lastComponent line ∉ s.files := hlast.symm ▸ hmissing
    have hnames := fun f fs => @renews_names_iff dir s line f fs hmissing'
    have hnothing := @renews_nothing_iff dir s line hmissing'
    rw [hlast] at hnames hnothing
    rw [droplineStep_eq hdir hs hturn hpat, hfits, OneOutdated]
    rcases hfound : lsGrep (unquoted (droplinePattern line)) s.files with _ | ⟨f, _ | ⟨g, gs⟩⟩
    · have hnone := not_foundBy_of_lsGrep_nil hs hfound
      rw [hnothing]
      constructor
      · intro h
        exact ⟨fun f hf => iff_of_false (hnone f hf) (h f hf),
          fun f hf g hg hfinds => absurd hfinds (hnone f hf)⟩
      · rintro ⟨h, -⟩ f hf hversion
        exact hnone f hf ((h f hf).mpr hversion)
    · obtain ⟨hf, hfinds⟩ := foundBy_of_lsGrep_singleton hs hfound
      obtain ⟨hfile, hfiles⟩ := names_of_lsGrep hs hfound
      rw [hnames f [] hfile hfiles]
      constructor
      · rintro ⟨-, hversion, hall⟩
        refine ⟨fun g hg => ?_, fun g hg h hh hg' hh' => ?_⟩
        · rw [hfinds g hg]
          exact ⟨fun heq => heq ▸ hversion, hall g hg⟩
        · rw [(hfinds g hg).mp hg', (hfinds h hh).mp hh']
      · rintro ⟨hversions, -⟩
        have honly : ∀ g ∈ s.files, IsVersionOf line g ↔ g = f := fun g hg =>
          (hversions g hg).symm.trans (hfinds g hg)
        exact ⟨rfl, (honly f hf).mpr rfl, fun g hg => (honly g hg).mp⟩
    · obtain ⟨hf, hg, hfg⟩ := two_of_lsGrep hs hfound
      obtain ⟨hfile, hfiles⟩ := names_of_lsGrep hs hfound
      rw [hnames f (g :: gs) hfile hfiles]
      exact iff_of_false (fun h => absurd h.1 (List.cons_ne_nil g gs))
        fun h => hfg (h.2 f hf.1 g hg.1 hf.2 hg.2)
  · rw [droplineStep, if_neg (mt (droplineTest_iff hs).mp hturn)]
    exact iff_of_true (renews_refl line) fun h => absurd h hturn

/-- A turn of the extra loop, by what the pattern finds. -/
theorem extraStep_eq (hline : IsUrl line) (hturn : ExtraTurn s line)
    (hpat : Unexpanded s (extraPattern (lastComponent line))) :
    extraStep dir s line =
      match lsGrep (unquoted (extraPattern (lastComponent line))) s.files with
      | [f] =>
        if f ∉ "==".toList :: binaryOps ∧ f ∈ s.cwd then
          (([dir ++ '/' :: f]).foldl (Folder.rm dir) s).wget line
        else s.wget line
      | _ => s.wget line := by
  rw [extraStep, if_pos (extraTest_iff.mpr hturn.1), hline.basename_eq]
  simp only [hturn.2, not_false_eq_true, if_true, lsGrep_expand hpat]
  cases hfound : lsGrep (unquoted (extraPattern (lastComponent line))) s.files with
  | nil =>
    have hnil : s.tests dir "-e".toList [[]] = some (decide ([] ∈ s.cwd)) :=
      tests_cwd hdir hs (Or.inl List.not_mem_nil)
    have hcaptured : captured (unlines []) = [] := rfl
    rw [hcaptured, if_neg fun h => ((bashTest_exists hnil).mp h).2.1 rfl]
  | cons f fs =>
    obtain ⟨hf, hfs⟩ := names_of_lsGrep hs hfound
    cases fs with
    | nil =>
      have hone : captured (unlines [f]) = f := captured_unlines_singleton hf.1.no_newline
      have hwords := words_names hdir hf hfs
      have htest := bashTest_exists (g := f) (tests_cwd hdir hs (Or.inl hf.2.2.1))
      rw [hone] at hwords
      simp only [hone, hwords, htest, ne_eq, hf.2.1, not_false_eq_true, true_and,
        decide_eq_true_eq]
      split_ifs <;> rfl
    | cons g gs =>
      -- no name in the working directory has a newline in it
      have hnewline : '\n' ∈ captured (unlines (f :: g :: gs)) :=
        newline_mem_captured (List.forall_mem_cons.mp hfs).1
      have hnot : captured (unlines (f :: g :: gs)) ∉ s.cwd := fun hin =>
        (hs.cwd _ hin).1 hnewline
      have htest := tests_cwd hdir hs (Or.inr hnewline)
      rw [if_neg fun h => hnot (of_decide_eq_true ((bashTest_exists htest).mp h).2.2)]

/-- A turn of the extra loop renews the cache when the line fits. -/
theorem extraStep_renews_iff (hline : line = [] ∨ IsUrl line)
    (hpat : ExtraTurn s line → Unexpanded s (extraPattern (lastComponent line))) :
    Renews dir (lastComponent line) s (extraStep dir s line) ↔ ExtraFits s line := by
  by_cases htest : line ∉ "==".toList :: binaryOps ∧ line ≠ [] ∧
      (line.drop 1).take 1 ∉ [['#'], ['!'], ['(']]
  · have hurl := hline.resolve_left htest.2.1
    by_cases hmissing : lastComponent line ∈ s.files
    · have hsame : extraStep dir s line = s := by
        rw [extraStep, if_pos (extraTest_iff.mpr htest), hurl.basename_eq]
        exact if_neg (not_not.mpr hmissing)
      rw [hsame]
      exact iff_of_true (renews_refl _) fun h => absurd hmissing h.2
    · have hturn : ExtraTurn s line := ⟨htest, hmissing⟩
      have hpat := hpat hturn
      have hfits : ExtraFits s line ↔ ∀ f ∈ s.files,
          (OnlyFound s (lastComponent line) f ↔ IsVersionOf (lastComponent line) f) :=
        ⟨fun h => (h hturn).2, fun h _ => ⟨hpat, h⟩⟩
      have hnothing : (∀ f ∈ s.files, ¬ OnlyFound s (lastComponent line) f) →
          (Renews dir (lastComponent line) s (s.wget line) ↔ ∀ f ∈ s.files,
            (OnlyFound s (lastComponent line) f ↔ IsVersionOf (lastComponent line) f)) := by
        intro hnone
        rw [renews_nothing_iff hmissing]
        exact ⟨fun h f hf => iff_of_false (hnone f hf) (h f hf),
          fun h f hf hversion => hnone f hf ((h f hf).mpr hversion)⟩
      rw [extraStep_eq hdir hs hurl hturn hpat, hfits]
      rcases hfound : lsGrep (unquoted (extraPattern (lastComponent line))) s.files with
        _ | ⟨f, _ | ⟨g, gs⟩⟩
      · exact hnothing fun f hf honly =>
          not_foundBy_of_lsGrep_nil hs hfound f hf ((honly.2.2 f hf).mpr rfl)
      · obtain ⟨hf, hfinds⟩ := foundBy_of_lsGrep_singleton hs hfound
        have honly : ∀ g ∈ s.files, OnlyFound s (lastComponent line) g ↔
            g = f ∧ f ∉ "==".toList :: binaryOps ∧ f ∈ s.cwd := by
          intro g hg
          refine ⟨fun h => ?_, fun h => ?_⟩
          · have heq := (h.2.2 f hf).mp ((hfinds f hf).mpr rfl)
            exact ⟨heq.symm, heq ▸ h.1, heq ▸ h.2.1⟩
          · exact ⟨h.1 ▸ h.2.1, h.1 ▸ h.2.2, h.1 ▸ hfinds⟩
        by_cases hcwd : f ∉ "==".toList :: binaryOps ∧ f ∈ s.cwd
        · simp only [if_pos hcwd]
          rw [renews_names_iff hmissing (hs.files f hf) (fun g hg => absurd hg List.not_mem_nil)]
          constructor
          · rintro ⟨-, hversion, hall⟩ g hg
            rw [honly g hg, and_iff_left hcwd]
            exact ⟨fun h => h ▸ hversion, hall g hg⟩
          · intro h
            exact ⟨rfl, (h f hf).mp ((honly f hf).mpr ⟨rfl, hcwd⟩),
              fun g hg hversion => ((honly g hg).mp ((h g hg).mpr hversion)).1⟩
        · simp only [if_neg hcwd]
          exact hnothing fun g hg h => hcwd ((honly g hg).mp h).2
      · refine hnothing fun h hh honly => ?_
        obtain ⟨hf, hg, hfg⟩ := two_of_lsGrep hs hfound
        exact hfg (((honly.2.2 f hf.1).mp hf.2).trans ((honly.2.2 g hg.1).mp hg.2).symm)
  · rw [extraStep, if_neg (mt extraTest_iff.mp htest)]
    exact iff_of_true (renews_refl _) fun h => absurd h.1 htest

end

/-! ## Whole lists -/

/-- The directories stay as they are described. -/
theorem Folder.Plain.wget {dir line : Text} {s : Folder} (hs : s.Plain) (paths : List Text)
    (hline : IsFileName (lastComponent line)) (hmissing : lastComponent line ∉ s.files) :
    ((paths.foldl (Folder.rm dir) s).wget line).Plain := by
  rw [foldl_rm_path]
  refine ⟨fun f hf => hs.cwd f (List.mem_of_mem_filter hf), fun f hf => ?_, ?_⟩
  · rcases List.mem_cons.mp hf with rfl | hf
    · exact hline
    · exact hs.files f (List.mem_of_mem_filter hf)
  · refine List.nodup_cons.mpr ⟨fun h => ?_, hs.nodup.filter _⟩
    exact hmissing (List.mem_of_mem_filter h)

/-- The Dropline loop keeps the names plain. -/
theorem Folder.Plain.droplineStep {dir line : Text} {s : Folder} (hs : s.Plain)
    (hline : line = [] ∨ IsFileName line) : (droplineStep dir s line).Plain := by
  unfold Build.droplineStep
  split_ifs with hturn
  · obtain ⟨-, hne, hmissing⟩ := (droplineTest_iff hs).mp hturn
    have hname := hline.resolve_left hne
    have hlast : lastComponent line = line := lastComponent_of_no_slash hname.2.2.1
    have hwget := fun paths => @Folder.Plain.wget dir line s hs paths (hlast.symm ▸ hname)
      (hlast.symm ▸ hmissing)
    dsimp only
    split_ifs
    · exact hwget _
    · exact hwget []
  · exact hs

/-- So does the extra loop. -/
theorem Folder.Plain.extraStep {dir line : Text} {s : Folder} (hs : s.Plain)
    (hline : line = [] ∨ IsUrl line) : (extraStep dir s line).Plain := by
  unfold Build.extraStep
  split_ifs with hturn
  · have hurl := hline.resolve_left (extraTest_iff.mp hturn).2.1
    dsimp only
    rw [hurl.basename_eq]
    split_ifs with hmissing
    · exact hs
    · exact Folder.Plain.wget hs _ hurl.2.2.2 hmissing
    · exact @Folder.Plain.wget dir line s hs [] hurl.2.2.2 hmissing
  · exact hs

section

variable {dir : Text} (hdir : IsWord dir) {s : Folder} (hs : s.Plain) {lines : List Text}
include hdir hs

/-- The loop over the Dropline list does what is expected when every line meets its condition, and
only then unless a pattern is expanded. -/
theorem dropline_renews_iff (hlines : ∀ line ∈ lines, line = [] ∨ IsFileName line)
    (hpat : EveryTurn (droplineStep dir)
      (fun s line _ => DroplineTurn s line → Unexpanded s (droplinePattern line)) s lines) :
    EveryTurn (droplineStep dir) (fun s line s' => Renews dir line s s') s lines ↔
      EveryTurn (droplineStep dir) (fun s line _ => DroplineFits s line) s lines :=
  @everyTurn_iff Folder Text (droplineStep dir) (fun s line s' => Renews dir line s s')
    (fun s line => DroplineTurn s line → Unexpanded s (droplinePattern line)) DroplineFits
    Folder.Plain lines (fun _ line hline hs => hs.droplineStep (hlines line hline))
    (fun _ line hline hs => droplineStep_renews_iff hdir hs (hlines line hline)) s hs hpat

/-- The loop over `urls.txt`. -/
theorem extra_renews_iff (hlines : ∀ line ∈ lines, line = [] ∨ IsUrl line)
    (hpat : EveryTurn (extraStep dir) (fun s line _ =>
      ExtraTurn s line → Unexpanded s (extraPattern (lastComponent line))) s lines) :
    EveryTurn (extraStep dir) (fun s line s' => Renews dir (lastComponent line) s s') s lines ↔
      EveryTurn (extraStep dir) (fun s line _ => ExtraFits s line) s lines :=
  @everyTurn_iff Folder Text (extraStep dir)
    (fun s line s' => Renews dir (lastComponent line) s s')
    (fun s line => ExtraTurn s line → Unexpanded s (extraPattern (lastComponent line))) ExtraFits
    Folder.Plain lines (fun _ line hline hs => hs.extraStep (hlines line hline))
    (fun _ line hline hs => extraStep_renews_iff hdir hs (hlines line hline)) s hs hpat

end

def gtkPackage (version : Text) (h : '-' ∉ version) : Package where
  name := "gtk".toList
  version := version
  arch := "i686".toList
  build := "1dl".toList
  version_dash := h
  arch_dash := by decide
  build_dash := by decide

def gtkOld : Text := "gtk-2.8-i686-1dl.tgz".toList

def gtkOlder : Text := "gtk-2.6-i686-1dl.tgz".toList

def gtkNew : Text := "gtk-2.10-i686-1dl.tgz".toList

theorem isVersionOf_gtkOld : IsVersionOf gtkNew gtkOld :=
  ⟨"gtk".toList, ⟨gtkPackage "2.10".toList (by decide), by decide, rfl⟩,
    ⟨gtkPackage "2.8".toList (by decide), by decide, rfl⟩⟩

def gtkList : Text := "gtk-2.10-i686-1dl.tgz:1024\n".toList

def gtkUrls : Text := "# nothing old in the way\nhttp://mirror/gtk-2.10-i686-1dl.tgz\n".toList

def oneOld : Folder := ⟨[], fun _ => [], [gtkOld], [], []⟩

def noFiles : Folder := ⟨[], fun _ => [], [], [], []⟩

end Backpack.Build
