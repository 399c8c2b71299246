import Backpack.Build.SlackwareCache

/-!
# When the package cache converges

The part of the file name that the loop takes for the package name, its stem, is read as a
regular expression. The cache converges exactly when the stems of the listed files find all
other versions of these packages and no other package.
-/

namespace Backpack.Build

open Shell

/-- The stem of the listed file `base` finds a line of the name `f`. A name that is a word has one
line, and the loop removes it unless it is `base`. -/
def Hits (base f : Text) : Prop :=
  stem base ≠ [] ∧ f.head? ≠ some '.' ∧ ∃ line ∈ f.splitOn '\n',
    grepLine .extended ('^' :: (stem base ++ "-[[:digit:]I]".toList)) line = true

instance (base f : Text) : Decidable (Hits base f) := inferInstanceAs (Decidable (_ ∧ _ ∧ _))

/-- The lines of the list, and the names that their stems find, reach the commands as they are. -/
structure Words (l : FileList) (files : List Text) : Prop where
  line : ∀ e ∈ l.entries, IsWord e.line ∧ isOption e.line = false ∧ '/' ∉ e.package.file
  file : ∀ f ∈ files, ∀ e ∈ l.entries, Hits e.package.file f → IsWord f

/-! ## One line of the list -/

/-- What the stem of a listed file finds are words. -/
def FindsWords (base : Text) (c : Cache) : Prop := ∀ f ∈ c.files, Hits base f → IsWord f

/-- Outdated are the files that a stem pattern finds. -/
theorem mem_outdated {base : Text} (hstem : stem base ≠ []) {c : Cache} (hc : FindsWords base c)
    {f : Text} : f ∈ outdated c base ↔ f ∈ c.files ∧ Hits base f := by
  unfold outdated grep
  rw [fileLines_unlines_splitOn, List.mem_filter, List.mem_flatMap]
  simp only [(lsSort_perm _).mem_iff, List.mem_filter, decide_eq_true_eq]
  constructor
  · rintro ⟨⟨g, ⟨hg, hdot⟩, hline⟩, hfound⟩
    have hhits : Hits base g := ⟨hstem, hdot, f, hline, hfound⟩
    rw [List.splitOn_eq_singleton (hc g hg hhits).no_newline, List.mem_singleton] at hline
    exact hline ▸ ⟨hg, hhits⟩
  · rintro ⟨hf, hhits⟩
    have hone : f.splitOn '\n' = [f] := List.splitOn_eq_singleton (hc f hf hhits).no_newline
    obtain ⟨-, hdot, line, hline, hfound⟩ := hhits
    rw [hone, List.mem_singleton] at hline
    exact ⟨⟨f, ⟨hf, hdot⟩, by rw [hone]; exact List.mem_singleton_self f⟩, hline ▸ hfound⟩

/-- One turn of the inner loop. -/
theorem mem_rm (base name f : Text) (c : Cache) :
    (f ∈ (if base ≠ name then c.rm name else c).files ↔ f ∈ c.files ∧ ¬ (f ≠ base ∧ f = name)) ∧
    (f ∈ (if base ≠ name then c.rm name else c).removed ↔
      f ∈ c.removed ∨ f ≠ base ∧ f ∈ c.files ∧ f = name) := by
  unfold Cache.rm
  by_cases hf : f = name
  · subst hf
    split_ifs with hbase hmem
    · simp [hmem, Ne.symm hbase]
    · simp [hmem]
    · simp [not_not.mp hbase]
  · split_ifs with hbase hmem
    · simp [hf]
    · simp [hf]
    · simp [hf]

/-- What the inner loop does with the names that `grep` prints. -/
theorem foldl_rm (base : Text) (names : List Text) (f : Text) (c : Cache) :
    (f ∈ (names.foldl (fun c delete => if base ≠ delete then c.rm delete else c) c).files ↔
      f ∈ c.files ∧ ¬ (f ≠ base ∧ f ∈ names)) ∧
    (f ∈ (names.foldl (fun c delete => if base ≠ delete then c.rm delete else c) c).removed ↔
      f ∈ c.removed ∨ f ≠ base ∧ f ∈ c.files ∧ f ∈ names) := by
  induction names generalizing c with
  | nil => simp
  | cons name names ih =>
    rcases mem_rm base name f c with ⟨hfiles, hremoved⟩
    rw [List.foldl_cons, (ih _).1, (ih _).2, hfiles, hremoved, List.mem_cons]
    by_cases hbase : f = base
    · simp [hbase]
    · by_cases hname : f = name
      · subst hname
        simp [hbase]
      · simp [hbase, hname]

/-- A name that `grep` does not print for another file stays. -/
theorem foldl_rm_of_forall_eq {base : Text} {names : List Text} (h : ∀ f ∈ names, f = base)
    (c : Cache) :
    names.foldl (fun c delete => if base ≠ delete then c.rm delete else c) c = c := by
  induction names with
  | nil => rfl
  | cons name names ih =>
    rw [List.foldl_cons, if_neg (not_not.mpr (h name List.mem_cons_self).symm)]
    exact ih fun f hf => h f (List.mem_cons_of_mem name hf)

section
variable {e : Entry} (he : IsWord e.line ∧ isOption e.line = false ∧ '/' ∉ e.package.file)
  {c : Cache} (hc : FindsWords e.package.file c)
include he

theorem lastComponent_line : lastComponent e.line = e.package.file :=
  lastComponent_append he.2.2 e.package.file_ne_nil

theorem isWord_file : IsWord e.package.file := fun a ha =>
  he.1 a (List.mem_append_right _ (List.mem_cons_of_mem _ ha))

theorem basename_line : basename (words e.line) = e.package.file := by
  have hne : e.line ≠ [] := by simp [Entry.line]
  rw [basename_words he.1.noBlank hne he.2.1]
  exact lastComponent_line he

omit he in
/-- The inner loop reads the names that `grep` prints. -/
theorem removeOutdated_eq {base : Text} (hstem : stem base ≠ []) (hc : FindsWords base c) :
    removeOutdated base c = (outdated c base).foldl
      (fun c delete => if base ≠ delete then c.rm delete else c) c := by
  unfold removeOutdated
  rw [readValues_unlines fun f hf =>
    hc f ((mem_outdated hstem hc).mp hf).1 ((mem_outdated hstem hc).mp hf).2]

omit he in
theorem mem_removeOutdated {base : Text} (hstem : stem base ≠ []) (hc : FindsWords base c) :
    (∀ f, f ∈ (removeOutdated base c).files ↔ f ∈ c.files ∧ ¬ (f ≠ base ∧ Hits base f)) ∧
    (∀ f, f ∈ (removeOutdated base c).removed ↔
      f ∈ c.removed ∨ f ≠ base ∧ f ∈ c.files ∧ Hits base f) := by
  have hhits : ∀ f ∈ c.files, (f ∈ outdated c base ↔ Hits base f) := by
    intro f hf
    rw [mem_outdated hstem hc, and_iff_right hf]
  rw [removeOutdated_eq hstem hc]
  refine ⟨fun f => ?_, fun f => ?_⟩
  · rw [(foldl_rm base _ f c).1]
    exact and_congr_right fun hf => by rw [hhits f hf]
  · rw [(foldl_rm base _ f c).2]
    refine or_congr_right (and_congr_right fun _ => and_congr_right fun hf => ?_)
    exact hhits f hf

include hc

/-- The directory after one line of the list. -/
theorem mem_grab_files {f : Text} : f ∈ (grab c e.line).files ↔
    f = e.package.file ∧ (stem e.package.file ≠ [] ∨ f ∈ c.files) ∨
      f ≠ e.package.file ∧ f ∈ c.files ∧ ¬ Hits e.package.file f := by
  unfold grab
  rw [basename_line he]
  by_cases hstem : stem e.package.file = []
  · have hnot : ¬ Hits e.package.file f := fun h => h.1 hstem
    simp only [hstem, if_true]
    by_cases hf : f = e.package.file <;> simp [hf, hnot]
  · rcases mem_removeOutdated hstem hc with ⟨hfiles, -⟩
    simp only [hstem, if_false]
    by_cases hf : f = e.package.file
    · subst hf
      split_ifs with hmem
      · simpa [hstem] using hmem
      · simp [Cache.wget, lastComponent_line he, hstem]
    · split_ifs with hmem
      · simp [hfiles, hf]
      · simp [Cache.wget, lastComponent_line he, hfiles, hf]

/-- What was removed after one line of the list. -/
theorem mem_grab_removed {f : Text} : f ∈ (grab c e.line).removed ↔
    f ∈ c.removed ∨ f ≠ e.package.file ∧ f ∈ c.files ∧ Hits e.package.file f := by
  unfold grab
  rw [basename_line he]
  by_cases hstem : stem e.package.file = []
  · have hnot : ¬ Hits e.package.file f := fun h => h.1 hstem
    simp [hstem, hnot]
  · rcases mem_removeOutdated hstem hc with ⟨-, hremoved⟩
    simp only [hstem, if_false]
    split_ifs with hmem
    · exact hremoved f
    · exact hremoved f

/-- Only a listed file is new. -/
theorem grab_words {base : Text} (hbase : FindsWords base c) : FindsWords base (grab c e.line) := by
  intro f hf hhits
  rcases (mem_grab_files he hc).mp hf with ⟨rfl, -⟩ | ⟨-, hmem, -⟩
  · exact isWord_file he
  · exact hbase f hmem hhits

/-- Nothing to do. -/
theorem grab_of_quiet (hpresent : stem e.package.file ≠ [] → e.package.file ∈ c.files)
    (hquiet : ∀ f ∈ c.files, Hits e.package.file f → f = e.package.file) :
    grab c e.line = c := by
  unfold grab
  rw [basename_line he]
  by_cases hstem : stem e.package.file = []
  · rw [if_pos hstem]
  · have houtdated : ∀ f ∈ outdated c e.package.file, f = e.package.file := by
      intro f hf
      have hmem := (mem_outdated hstem hc).mp hf
      exact hquiet f hmem.1 hmem.2
    have hsame : removeOutdated e.package.file c = c := by
      rw [removeOutdated_eq hstem hc]
      exact foldl_rm_of_forall_eq houtdated c
    simp only [hstem, if_false, hsame, hpresent hstem, not_true]

end

/-! ## The whole list -/

section
variable {es : List Entry}
  (hes : ∀ e ∈ es, IsWord e.line ∧ isOption e.line = false ∧ '/' ∉ e.package.file)
  {c : Cache} (hc : ∀ e ∈ es, FindsWords e.package.file c) {f : Text}
include hes hc

/-- One line later the rest of the list still finds words. -/
theorem tail_words {e : Entry} (he : e ∈ es) {rest : List Entry} (hrest : ∀ x ∈ rest, x ∈ es) :
    ∀ x ∈ rest, FindsWords x.package.file (grab c e.line) := fun x hx =>
  grab_words (hes e he) (hc e he) (hc x (hrest x hx))

theorem run_words {base : Text} (hbase : FindsWords base c) :
    FindsWords base (es.foldl (fun c e => grab c e.line) c) := by
  induction es generalizing c with
  | nil => exact hbase
  | cons e es ih =>
    exact ih (fun x hx => hes x (List.mem_cons_of_mem e hx))
      (tail_words hes hc List.mem_cons_self fun x => List.mem_cons_of_mem e)
      (grab_words (hes e List.mem_cons_self) (hc e List.mem_cons_self) hbase)

/-- A file that is not listed stays as long as no stem finds it. -/
theorem mem_run_of_not_listed (hf : ∀ e ∈ es, f ≠ e.package.file) :
    f ∈ (es.foldl (fun c e => grab c e.line) c).files ↔
      f ∈ c.files ∧ ∀ e ∈ es, ¬ Hits e.package.file f := by
  induction es generalizing c with
  | nil => simp
  | cons e es ih =>
    rw [List.foldl_cons, ih (fun x hx => hes x (List.mem_cons_of_mem e hx))
      (tail_words hes hc List.mem_cons_self fun x => List.mem_cons_of_mem e)
      fun x hx => hf x (List.mem_cons_of_mem e hx),
      mem_grab_files (hes e List.mem_cons_self) (hc e List.mem_cons_self)]
    have hne := hf e List.mem_cons_self
    simp [hne, and_assoc]

/-- A file that only its own stem may find stays, and is downloaded when it is listed. -/
theorem mem_run_of_apart (hf : ∀ e ∈ es, Hits e.package.file f → f = e.package.file) :
    f ∈ (es.foldl (fun c e => grab c e.line) c).files ↔
      f ∈ c.files ∨ ∃ e ∈ es, f = e.package.file ∧ stem f ≠ [] := by
  induction es generalizing c with
  | nil => simp
  | cons e es ih =>
    rw [List.foldl_cons, ih (fun x hx => hes x (List.mem_cons_of_mem e hx))
      (tail_words hes hc List.mem_cons_self fun x => List.mem_cons_of_mem e)
      fun x hx => hf x (List.mem_cons_of_mem e hx),
      mem_grab_files (hes e List.mem_cons_self) (hc e List.mem_cons_self)]
    by_cases hfe : f = e.package.file
    · subst hfe
      simp only [List.mem_cons, exists_eq_or_imp]
      tauto
    · have hnot : ¬ Hits e.package.file f := fun h => hfe (hf e List.mem_cons_self h)
      simp [hfe, hnot]

theorem mem_run_removed_mono (hf : f ∈ c.removed) :
    f ∈ (es.foldl (fun c e => grab c e.line) c).removed := by
  induction es generalizing c with
  | nil => exact hf
  | cons e es ih =>
    exact ih (fun x hx => hes x (List.mem_cons_of_mem e hx))
      (tail_words hes hc List.mem_cons_self fun x => List.mem_cons_of_mem e)
      ((mem_grab_removed (hes e List.mem_cons_self) (hc e List.mem_cons_self)).mpr (Or.inl hf))

/-- A file that is found by the stem of another one is removed at some time. -/
theorem mem_run_removed_of_hits {e : Entry} (he : e ∈ es) (hmem : f ∈ c.files)
    (hne : f ≠ e.package.file) (hhits : Hits e.package.file f) :
    f ∈ (es.foldl (fun c e => grab c e.line) c).removed := by
  induction es generalizing c with
  | nil => exact absurd he List.not_mem_nil
  | cons x es ih =>
    have hx := hes x List.mem_cons_self
    have hcx := hc x List.mem_cons_self
    have hwords := tail_words hes hc List.mem_cons_self fun y => List.mem_cons_of_mem x
    have htail := fun y hy => hes y (List.mem_cons_of_mem x hy)
    by_cases hgone : f ∈ (grab c x.line).removed
    · exact mem_run_removed_mono htail hwords hgone
    · -- not removed by this line, so the line `e` comes later
      have hnot : ¬ (f ≠ x.package.file ∧ Hits x.package.file f) := fun h =>
        hgone ((mem_grab_removed hx hcx).mpr (Or.inr ⟨h.1, hmem, h.2⟩))
      have hstays : f ∈ (grab c x.line).files := by
        rw [mem_grab_files hx hcx]
        by_cases hfx : f = x.package.file
        · exact Or.inl ⟨hfx, Or.inr hmem⟩
        · exact Or.inr ⟨hfx, hmem, fun h => hnot ⟨hfx, h⟩⟩
      rcases List.mem_cons.mp he with rfl | he
      · exact absurd ⟨hne, hhits⟩ hnot
      · exact ih htail hwords he hstays

/-- What is removed was found by the stem of another file. -/
theorem mem_run_removed (hf : f ∈ (es.foldl (fun c e => grab c e.line) c).removed) :
    f ∈ c.removed ∨ ∃ e ∈ es, f ≠ e.package.file ∧ Hits e.package.file f := by
  induction es generalizing c with
  | nil => exact Or.inl hf
  | cons x es ih =>
    have hx := hes x List.mem_cons_self
    rcases ih (fun y hy => hes y (List.mem_cons_of_mem x hy))
      (tail_words hes hc List.mem_cons_self fun y => List.mem_cons_of_mem x) hf with
      h | ⟨e, he, h⟩
    · rcases (mem_grab_removed hx (hc x List.mem_cons_self)).mp h with h | ⟨hne, -, hhits⟩
      · exact Or.inl h
      · exact Or.inr ⟨x, List.mem_cons_self, hne, hhits⟩
    · exact Or.inr ⟨e, List.mem_cons_of_mem x he, h⟩

theorem run_of_quiet
    (hpresent : ∀ e ∈ es, stem e.package.file ≠ [] → e.package.file ∈ c.files)
    (hquiet : ∀ e ∈ es, ∀ f ∈ c.files, Hits e.package.file f → f = e.package.file) :
    es.foldl (fun c e => grab c e.line) c = c := by
  induction es with
  | nil => rfl
  | cons e es ih =>
    rw [List.foldl_cons, grab_of_quiet (hes e List.mem_cons_self) (hc e List.mem_cons_self)
      (hpresent e List.mem_cons_self) (hquiet e List.mem_cons_self)]
    exact ih (fun x hx => hes x (List.mem_cons_of_mem e hx))
      (fun x hx => hc x (List.mem_cons_of_mem e hx))
      (fun x hx => hpresent x (List.mem_cons_of_mem e hx))
      fun x hx => hquiet x (List.mem_cons_of_mem e hx)

end

/-! ## Convergence -/

/-- The stems of the listed files find the other versions of these packages, and nothing
else. -/
structure Separated (l : FileList) (files : List Text) : Prop where
  words : Words l files
  /-- no stem finds another listed file -/
  listed : ∀ e ∈ l.entries, ∀ e' ∈ l.entries, Hits e.package.file e'.package.file →
    e'.package.file = e.package.file
  /-- some stem finds each file of another version -/
  outdated : ∀ e ∈ l.entries, ∀ f ∈ files, IsFileOf e.package.name f → f ≠ e.package.file →
    ∃ e' ∈ l.entries, Hits e'.package.file f
  /-- no stem finds a file of a package that is not listed -/
  others : ∀ f ∈ files, ∀ name, IsFileOf name f → (∀ e ∈ l.entries, e.package.name ≠ name) →
    ∀ e ∈ l.entries, ¬ Hits e.package.file f
  /-- a file without a stem is there already -/
  missing : ∀ e ∈ l.entries, stem e.package.file = [] → e.package.file ∈ files

section
variable {l : FileList} {files : List Text} (h : Words l files)
include h

theorem update_eq : update l.text files =
    l.entries.foldl (fun c e => grab c e.line) ⟨files, [], []⟩ := by
  have hlines : ∀ p ∈ l.entries.map Entry.line, IsWord p := by
    intro p hp
    rcases List.mem_map.mp hp with ⟨e, he, rfl⟩
    exact (h.line e he).1
  unfold update FileList.text
  rw [readValues_unlines hlines, List.foldl_map]

/-- What the stems find before the first line. -/
theorem Words.start : ∀ e ∈ l.entries, FindsWords e.package.file ⟨files, [], []⟩ :=
  fun e he f hf => h.file f hf e he

/-- The second time starts with words as well. -/
theorem Words.again : Words l (update l.text files).files := by
  refine ⟨h.line, fun f hf e he => ?_⟩
  rw [update_eq h] at hf
  exact run_words h.line h.start (h.start e he) f hf

/-- What becomes of a file that is not listed. -/
theorem mem_update_of_not_listed {f : Text} (hf : ∀ e ∈ l.entries, f ≠ e.package.file) :
    f ∈ (update l.text files).files ↔ f ∈ files ∧ ∀ e ∈ l.entries, ¬ Hits e.package.file f := by
  rw [update_eq h]
  exact mem_run_of_not_listed h.line h.start hf

/-- What becomes of a listed file that no other stem finds. -/
theorem mem_update_of_listed {e : Entry} (he : e ∈ l.entries)
    (hother : ∀ x ∈ l.entries, Hits x.package.file e.package.file →
      e.package.file = x.package.file) :
    e.package.file ∈ (update l.text files).files ↔
      e.package.file ∈ files ∨ stem e.package.file ≠ [] := by
  rw [update_eq h, mem_run_of_apart h.line h.start hother]
  refine or_congr_right ⟨?_, fun hstem => ⟨e, he, rfl, hstem⟩⟩
  rintro ⟨x, -, -, hstem⟩
  exact hstem

/-- In the second pass a file that a foreign stem finds is removed. -/
theorem not_hits_of_stable
    (hstable : update l.text (update l.text files).files = ⟨(update l.text files).files, [], []⟩)
    {e : Entry} (he : e ∈ l.entries) {f : Text} (hf : f ∈ (update l.text files).files)
    (hhits : Hits e.package.file f) : f = e.package.file := by
  by_contra hne
  have hgone := @mem_run_removed_of_hits l.entries h.again.line
    ⟨(update l.text files).files, [], []⟩ h.again.start f e he hf hne hhits
  rw [← update_eq h.again, hstable] at hgone
  exact absurd hgone List.not_mem_nil

end

theorem name_eq_of_isFileOf {p : Package} {name : Text} (h : IsFileOf name p.file) :
    p.name = name := by
  rcases h with ⟨q, hq, rfl⟩
  exact (Package.name_eq_of_file_eq hq).symm

/-- A file of a package that is not listed is not listed. -/
theorem ne_of_not_listed {l : FileList} {name f : Text} (hof : IsFileOf name f)
    (hnot : ∀ e ∈ l.entries, e.package.name ≠ name) : ∀ e ∈ l.entries, f ≠ e.package.file := by
  intro e he hfe
  rw [hfe] at hof
  exact hnot e he (name_eq_of_isFileOf hof)

/-- Another version of a listed package is not listed. -/
theorem ne_of_other_version {l : FileList} {e : Entry} {f : Text} (he : e ∈ l.entries)
    (hof : IsFileOf e.package.name f) (hne : f ≠ e.package.file) :
    ∀ x ∈ l.entries, f ≠ x.package.file := by
  intro x hx hfx
  rw [hfx] at hof
  have hsame : x = e := List.inj_on_of_nodup_map l.once hx he (name_eq_of_isFileOf hof)
  exact hne (hsame ▸ hfx)

namespace Separated

variable {l : FileList} {files : List Text} (h : Separated l files)
include h

/-- After an update every package of the list is there. -/
theorem present {e : Entry} (he : e ∈ l.entries) :
    e.package.file ∈ (update l.text files).files := by
  refine (mem_update_of_listed h.words he fun x hx => h.listed x hx e he).mpr ?_
  by_cases hstem : stem e.package.file = []
  · exact Or.inl (h.missing e he hstem)
  · exact Or.inr hstem

/-- And no other version of it. -/
theorem only {e : Entry} (he : e ∈ l.entries) {f : Text} (hf : f ∈ (update l.text files).files)
    (hof : IsFileOf e.package.name f) : f = e.package.file := by
  by_contra hne
  have hnot := ne_of_other_version he hof hne
  rcases (mem_update_of_not_listed h.words hnot).mp hf with ⟨hmem, hnone⟩
  rcases h.outdated e he f hmem hof hne with ⟨x, hx, hhits⟩
  exact hnone x hx hhits

/-- Packages that are not on the list stay. -/
theorem untouched {f name : Text} (hf : f ∈ files) (hof : IsFileOf name f)
    (hnot : ∀ e ∈ l.entries, e.package.name ≠ name) :
    f ∈ (update l.text files).files ∧ f ∉ (update l.text files).removed := by
  have hnone := h.others f hf name hof hnot
  refine ⟨(mem_update_of_not_listed h.words (ne_of_not_listed hof hnot)).mpr ⟨hf, hnone⟩, ?_⟩
  intro hgone
  rw [update_eq h.words] at hgone
  rcases mem_run_removed h.words.line h.words.start hgone with hgone | ⟨x, hx, -, hhits⟩
  · exact absurd hgone List.not_mem_nil
  · exact hnone x hx hhits

/-- A second update changes nothing. -/
theorem stable :
    update l.text (update l.text files).files = ⟨(update l.text files).files, [], []⟩ := by
  have hwords := h.words.again
  rw [update_eq hwords]
  refine run_of_quiet hwords.line hwords.start ?_ ?_
  · intro e he _
    exact h.present he
  · intro e he f hf hhits
    by_cases hl : ∃ x ∈ l.entries, f = x.package.file
    · rcases hl with ⟨x, hx, rfl⟩
      exact h.listed e he x hx hhits
    · have hnot : ∀ x ∈ l.entries, f ≠ x.package.file := fun x hx hfx => hl ⟨x, hx, hfx⟩
      exact absurd hhits (((mem_update_of_not_listed h.words hnot).mp hf).2 e he)

theorem converges : Converges l files where
  present := fun _ he => h.present he
  only := fun _ he _ hf hof => h.only he hf hof
  untouched := fun _ hf _ hof hnot => h.untouched hf hof hnot
  stable := h.stable

end Separated

theorem Converges.separated {l : FileList} {files : List Text} (h : Converges l files)
    (hwords : Words l files) : Separated l files := by
  have hlisted : ∀ e ∈ l.entries, ∀ e' ∈ l.entries, Hits e.package.file e'.package.file →
      e'.package.file = e.package.file := by
    intro e he e' he' hhits
    exact not_hits_of_stable hwords h.stable he (h.present e' he') hhits
  refine ⟨hwords, hlisted, ?_, ?_, ?_⟩
  -- another version is gone, so a stem found it
  · intro e he f hf hof hne
    have hgone : f ∉ (update l.text files).files := fun hmem => hne (h.only e he f hmem hof)
    by_contra hnone
    apply hgone
    refine (mem_update_of_not_listed hwords (ne_of_other_version he hof hne)).mpr ⟨hf, ?_⟩
    exact fun x hx hhits => hnone ⟨x, hx, hhits⟩
  -- a package that is not listed is still there, so no stem found it
  · intro f hf name hof hnot e he
    have hmem := (h.untouched f hf name hof hnot).1
    exact ((mem_update_of_not_listed hwords (ne_of_not_listed hof hnot)).mp hmem).2 e he
  -- a file without a stem is not downloaded
  · intro e he hstem
    have hmem := h.present e he
    rcases (mem_update_of_listed hwords he fun x hx => hlisted x hx e he).mp hmem with hmem | hne
    · exact hmem
    · exact absurd hstem hne

/-- The package cache converges exactly when the stems keep the packages apart. -/
theorem converges_iff_separated (l : FileList) (files : List Text) :
    (Separated l files → Converges l files) ∧
      (Words l files → Converges l files → Separated l files) :=
  ⟨fun h => h.converges, fun hwords h => h.separated hwords⟩

/-- `foo`, with a version number of two digits. -/
def fooList : FileList where
  entries := [⟨"slackware/ap".toList, "foo".toList, "10.2".toList, "i486".toList, "1".toList,
    by decide, by decide, by decide⟩]
  once := by decide

/-- `foo-9.1` is still there after the update to `foo-10.2`. -/
theorem fooList_not_converges : ¬ Converges fooList ["foo-9.1-i486-1.tgz".toList] := by
  intro h
  have hof : IsFileOf "foo".toList "foo-9.1-i486-1.tgz".toList :=
    ⟨⟨"foo".toList, "9.1".toList, "i486".toList, "1".toList, by decide, by decide, by decide⟩,
      rfl, rfl⟩
  have hmem : "foo-9.1-i486-1.tgz".toList ∈
      (update fooList.text ["foo-9.1-i486-1.tgz".toList]).files := by decide
  have heq := h.only _ List.mem_cons_self _ hmem hof
  exact absurd heq (by decide)

end Backpack.Build
