import Backpack.Dufie.Sanitize
import Backpack.Dufie.LoadDir
import Backpack.Dufie.DebianTheorems
import Backpack.Dufie.PortageTheorems

/-!
# The buffers of the loaders

What `load_dir` and the three functions for packages make with `sprintf`, `strcpy` and `strcat`, and
where. Each of them tests the length of some strings before it writes others.
-/

namespace Backpack.Dufie

open Shell Libc

/-! ## The output of `du` and of `rpm` -/

/-- What `tmp` and `ptr` are for the lines that are read, up to one without a tab, where `ptr` is
`NULL` and the program ends. -/
def splitAll : List Text → List (Text × Text)
  | [] => []
  | c :: cs =>
    match splitRecord (string c) with
    | none => []
    | some r => r :: splitAll cs

/-- Every line has a tab. -/
def AllSplit (reads : List Text) : Prop := ∀ c ∈ reads, (splitRecord (string c)).isSome

instance (reads : List Text) : Decidable (AllSplit reads) :=
  inferInstanceAs (Decidable (∀ _ ∈ _, _))

/-- What `load_dir` writes to `bar`. -/
def barWrites : Text → List Text → List BufferWrite
  | _, [] => []
  | bar, ptr :: ptrs =>
    if bar.length < 2036 then
      ⟨2048, workingOn ++ ptr⟩ :: barWrites (workingOn ++ ptr) ptrs
    else barWrites bar ptrs

/-- The list from the output of `du`. -/
def duList (out : Text) : List DirHelp :=
  (splitAll (fgetsAll 2048 out)).map fun r => ⟨r.2, number r.1⟩

/-- `load_dir(path, data)`, where `du` prints `out`. The last string is made when `create_file_tree`
has ended; the buffers of its labels are not among these. -/
def loadDirWrites (below : Char → Bool) (fuel : ℕ) (path out : Text) : List BufferWrite :=
  assemble ((sanitize below path).length + 16) []
    ["du ".toList, sanitize below path, " 2>/dev/null".toList] ++
  barWrites [] ((duList out).map (·.dir)) ++
  if AllSplit (fgetsAll 2048 out) ∧ (createFileTree fuel (addAll (duList out)) path []).isSome then
    [⟨2048, loaded ++ path⟩]
  else []

/-- A turn of the loop of `on_mnuRPM_activate`. -/
def rpmTurn (ptr : Text) : List BufferWrite :=
  (if ptr.length < 2033 then [⟨255 + 2, processing ++ ptr ++ dots⟩] else []) ++
    assemble (255 + 2) [] [['/'], ptr]

/-- What `on_mnuRPM_activate` writes when `rpm` prints `out`. -/
def rpmWrites (out : Text) : List BufferWrite :=
  (splitAll (fgetsAll 2048 out)).flatMap (fun r => rpmTurn r.2) ++
    if AllSplit (fgetsAll 2048 out) then [⟨2048, "Loaded list of installed RPMs...".toList⟩]
    else []

/-! ## The status file of `dpkg` -/

/-- The name that is held after a line. -/
def nextName (name tmp : Text) : Text :=
  if hasKey packageKey tmp then (tmp.drop 9).dropLast else name

/-- What is written for a line, and what `name` holds before it. -/
def debianTurn (name tmp : Text) : List BufferWrite :=
  if hasKey packageKey tmp then
    ⟨2048, tmp.drop 9⟩ ::
      if (nextName name tmp).length < 2033 then
        [⟨2048, processing ++ nextName name tmp ++ dots⟩]
      else []
  else if hasKey installedKey tmp then []
  else if hasKey versionKey tmp then assemble 2048 [] [['/'], name, comma, tmp.drop 9]
  else []

def debianLoop : Text → List Text → List BufferWrite
  | _, [] => [⟨2048, "Loaded list of installed Debian packages".toList⟩]
  | name, tmp :: rest => debianTurn name tmp ++ debianLoop (nextName name tmp) rest

/-- What `on_mnuDebian_activate` writes for a status file, as long as `add` returns. -/
def debianWrites (status : Text) : List BufferWrite :=
  debianLoop [] ((fgetsAll 2048 status).map string)

/-! ## The database of Portage -/

/-- A turn of the loop of `on_mnuPortage_activate`. -/
def categoryWrites (filename : Text) (db : Database) : DirEntry Category → List BufferWrite
  | .sub type cat =>
    assemble (nameSize filename) [] [filename, ['/'], type.text] ++
    cat.flatMap (fun e => entryWrites filename type.text e.dName (openContents db cat e).isSome) ++
    assemble (nameSize filename) [] [['/'], type.text]
  | _ => []

def portageWrites (filename : Text) (db : Database) : List BufferWrite :=
  db.flatMap (categoryWrites filename db) ++
    [⟨2048, "Loaded list of installed Portage packages".toList⟩]

/-! ## All of them -/

/-- A loader, and what it reads. -/
inductive Load where
  | directory (below : Char → Bool) (path out : Text)
  | rpm (out : Text)
  | debian (status : Text)
  | portage (filename : Text) (db : Database)

def Load.writes (fuel : ℕ) : Load → List BufferWrite
  | directory below path out => loadDirWrites below fuel path out
  | rpm out => rpmWrites out
  | debian status => debianWrites status
  | portage filename db => portageWrites filename db

/-- The tree of a list can be made, and what is made of the path then fits. -/
def PathFits (path out : Text) : Prop :=
  AllSplit (fgetsAll 2048 out) → (duList out = [] ∨
    (∃ e ∈ duList out, e.dir = path) ∧ ¬ Circular (duList out) path) → path.length ≤ 2040

/-- A `Version` line fits together with the name above it. -/
def VersionsFit (name : Text) (lines : List Text) : Prop :=
  ∀ pre tmp post, lines = pre ++ tmp :: post → hasKey versionKey tmp →
    (pre.foldl nextName name).length + (tmp.drop 9).length ≤ 2044

/-- The lengths that fit. -/
def Load.Short : Load → Prop
  | directory _ path out => StatusFits (duList out) ∧ PathFits path out
  | rpm out => ∀ r ∈ splitAll (fgetsAll 2048 out), r.2.length ≤ 242
  | debian status => VersionsFit [] ((fgetsAll 2048 status).map string)
  | portage _ db => ∀ e ∈ db, ∀ e' ∈ e.category, e.dName.length + e'.dName.length ≤ 245

/-! ## Loading a directory -/

theorem barWrites_fit_iff {bar : Text} {ds : List DirHelp} :
    (∀ w ∈ barWrites bar (ds.map (·.dir)), w.Fits) ↔ (bar.length < 2036 → StatusFits ds) := by
  induction ds generalizing bar with
  | nil => exact iff_of_true (fun w hw => absurd hw List.not_mem_nil) fun _ => statusFits_nil
  | cons d ds ih =>
    rw [List.map_cons, barWrites]
    by_cases hshort : bar.length < 2036
    · have hfits : BufferWrite.Fits ⟨2048, workingOn ++ d.dir⟩ ↔ d.dir.length ≤ 2036 := by
        rw [BufferWrite.fits_mk, List.length_append, length_workingOn]
        omega
      have hnext : (workingOn ++ d.dir).length < 2036 ↔ d.dir.length < 2025 := by
        rw [List.length_append, length_workingOn]
        omega
      rw [if_pos hshort, List.forall_mem_cons, hfits, ih, hnext, statusFits_cons]
      simp [hshort]
    · rw [if_neg hshort, ih]
      simp [hshort]

theorem command_fits (below : Char → Bool) (path : Text) :
    ∀ w ∈ assemble ((sanitize below path).length + 16) []
      ["du ".toList, sanitize below path, " 2>/dev/null".toList], w.Fits := by
  refine (assemble_fit_iff (by simp) []).mpr (le_of_eq ?_)
  rw [← duCommand_length, duCommand]
  simp

/-- All buffers of `load_dir` hold what is written when the status line and the path do. -/
theorem loadDirWrites_fit_iff (below : Char → Bool) (path out : Text) :
    (∀ fuel, ∀ w ∈ loadDirWrites below fuel path out, w.Fits) ↔
      StatusFits (duList out) ∧ PathFits path out := by
  have hbar := @barWrites_fit_iff [] (duList out)
  simp only [List.length_nil, show (0 < 2036) by decide, true_imp_iff] at hbar
  have hpath : (∀ fuel, AllSplit (fgetsAll 2048 out) ∧
      (createFileTree fuel (addAll (duList out)) path []).isSome → path.length ≤ 2040) ↔
        PathFits path out := by
    rw [PathFits, ← createFileTree_ends_iff (duList out) path []]
    exact ⟨fun h hsplit ⟨fuel, hends⟩ => h fuel ⟨hsplit, hends⟩,
      fun h fuel hends => h hends.1 ⟨fuel, hends.2⟩⟩
  have hlast : BufferWrite.Fits ⟨2048, loaded ++ path⟩ ↔ path.length ≤ 2040 := by
    rw [BufferWrite.fits_mk, List.length_append, length_loaded]
    omega
  rw [← hbar, ← hpath]
  simp only [loadDirWrites, List.forall_mem_append, fits_if_iff, List.forall_mem_singleton, hlast]
  constructor
  · intro h
    exact ⟨(h 0).1.2, fun fuel => (h fuel).2⟩
  · intro h fuel
    exact ⟨⟨command_fits below path, h.1⟩, h.2 fuel⟩

/-! ## Loading packages -/

/-- The test is for another buffer than the one that is written. -/
theorem rpmTurn_fits_iff {ptr : Text} : (∀ w ∈ rpmTurn ptr, w.Fits) ↔ ptr.length ≤ 242 := by
  have hprocessing : processing.length = 11 := rfl
  have hdots : dots.length = 3 := rfl
  have hname := @assemble_fit_iff (255 + 2) [['/'], ptr] (by simp) []
  simp only [List.flatten_cons, List.flatten_nil, List.length_append, List.length_cons,
    List.length_nil] at hname
  rw [rpmTurn, List.forall_mem_append, hname, fits_if_iff, List.forall_mem_singleton,
    BufferWrite.fits_mk]
  simp only [List.length_append, hprocessing, hdots]
  omega

/-- The buffer of an rpm record holds a name of at most 242 bytes. -/
theorem rpmWrites_fit_iff (out : Text) : (∀ w ∈ rpmWrites out, w.Fits) ↔
    ∀ r ∈ splitAll (fgetsAll 2048 out), r.2.length ≤ 242 := by
  have hlast : ∀ w ∈ if AllSplit (fgetsAll 2048 out) then
      [(⟨2048, "Loaded list of installed RPMs...".toList⟩ : BufferWrite)] else [], w.Fits :=
    fits_if_iff.mpr fun _ => List.forall_mem_singleton.mpr (by decide)
  rw [rpmWrites, List.forall_mem_append, and_iff_left hlast, List.forall_mem_flatMap]
  exact forall₂_congr fun r _ => rpmTurn_fits_iff

theorem debianTurn_fits_iff {name tmp : Text} (htmp : tmp.length < 2048) :
    (∀ w ∈ debianTurn name tmp, w.Fits) ↔
      (hasKey versionKey tmp → name.length + (tmp.drop 9).length ≤ 2044) := by
  have hprocessing : processing.length = 11 := rfl
  have hdots : dots.length = 3 := rfl
  have hcomma : comma.length = 2 := rfl
  have hdrop : (tmp.drop 9).length ≤ 2038 := by
    rw [List.length_drop]
    omega
  unfold debianTurn
  -- no line has two of the keys, so that only a `Version` line is measured with the name
  split_ifs with hp hname hi hv
  · -- the test for the status bar is for the same string
    have hversion := @not_hasKey_of_hasKey packageKey versionKey tmp (by decide) (by decide)
      (by decide) hp
    refine iff_of_true ?_ (by simp [hversion])
    rw [List.forall_mem_cons, List.forall_mem_singleton, BufferWrite.fits_mk, BufferWrite.fits_mk]
    simp only [List.length_append, hprocessing, hdots]
    omega
  · have hversion := @not_hasKey_of_hasKey packageKey versionKey tmp (by decide) (by decide)
      (by decide) hp
    refine iff_of_true ?_ (by simp [hversion])
    rw [List.forall_mem_singleton, BufferWrite.fits_mk]
    omega
  · have hversion := @not_hasKey_of_hasKey installedKey versionKey tmp (by decide) (by decide)
      (by decide) hi
    exact iff_of_true (fun w hw => absurd hw List.not_mem_nil) (by simp [hversion])
  · rw [assemble_fit_iff (by simp)]
    simp only [List.flatten_cons, List.flatten_nil, List.length_append, List.length_cons,
      List.length_nil, hcomma, hv, true_imp_iff]
    omega
  · exact iff_of_true (fun w hw => absurd hw List.not_mem_nil) fun h => absurd h hv

/-- The loop over the status file overruns no buffer when each version fits behind its name. -/
theorem debianLoop_fits_iff {name : Text} {lines : List Text}
    (hlines : ∀ tmp ∈ lines, tmp.length < 2048) :
    (∀ w ∈ debianLoop name lines, w.Fits) ↔ VersionsFit name lines := by
  induction lines generalizing name with
  | nil =>
    refine iff_of_true ?_ fun pre tmp post h => ?_
    · exact List.forall_mem_singleton.mpr (by decide)
    · simp at h
  | cons tmp rest ih =>
    have hcons := @forall_split_cons _ tmp rest fun pre tmp => hasKey versionKey tmp →
      (pre.foldl nextName name).length + (tmp.drop 9).length ≤ 2044
    rw [debianLoop, List.forall_mem_append, debianTurn_fits_iff (hlines tmp List.mem_cons_self),
      ih fun t ht => hlines t (List.mem_cons_of_mem _ ht)]
    exact hcons.symm

theorem debianWrites_fit_iff (status : Text) : (∀ w ∈ debianWrites status, w.Fits) ↔
    VersionsFit [] ((fgetsAll 2048 status).map string) := by
  refine debianLoop_fits_iff (List.forall_mem_map.mpr fun c hc => ?_)
  have hlt := length_lt_of_mem_fgetsAll (by decide) hc
  have hle := length_string_le c
  omega

/-- The path of a package fits when category and package have at most 245 characters. -/
theorem categoryWrites_fit_iff (filename : Text) (db : Database) (e : DirEntry Category) :
    (∀ w ∈ categoryWrites filename db e, w.Fits) ↔
      ∀ e' ∈ e.category, e.dName.length + e'.dName.length ≤ 245 := by
  cases e with
  | self => exact iff_of_true (fun w hw => absurd hw List.not_mem_nil) (by simp [DirEntry.category])
  | parent =>
    exact iff_of_true (fun w hw => absurd hw List.not_mem_nil) (by simp [DirEntry.category])
  | sub type cat =>
    have htype := type.length_le
    have hopened := (@assemble_fit_iff (nameSize filename) [filename, ['/'], type.text]
      (by simp) []).mpr (by simp [nameSize]; omega)
    have hadded := (@assemble_fit_iff (nameSize filename) [['/'], type.text] (by simp) []).mpr
      (by simp [nameSize]; omega)
    rw [categoryWrites, List.forall_mem_append, List.forall_mem_append, and_iff_left hadded,
      and_iff_right hopened, List.forall_mem_flatMap]
    exact forall₂_congr fun e' _ => entryWrites_fit_iff

/-- So it is for the whole database. -/
theorem portageWrites_fit_iff (filename : Text) (db : Database) :
    (∀ w ∈ portageWrites filename db, w.Fits) ↔
      ∀ e ∈ db, ∀ e' ∈ e.category, e.dName.length + e'.dName.length ≤ 245 := by
  have hlast : ∀ w ∈ [(⟨2048, "Loaded list of installed Portage packages".toList⟩ : BufferWrite)],
      w.Fits := List.forall_mem_singleton.mpr (by decide)
  rw [portageWrites, List.forall_mem_append, and_iff_left hlast, List.forall_mem_flatMap]
  exact forall₂_congr fun e _ => categoryWrites_fit_iff filename db e

/-- Every string that a loader makes fits in its buffer exactly for these lengths. -/
theorem load_fits_iff (l : Load) : (∀ fuel, ∀ w ∈ l.writes fuel, w.Fits) ↔ l.Short := by
  cases l with
  | directory below path out => exact loadDirWrites_fit_iff below path out
  | rpm out => exact (forall_const ℕ).trans (rpmWrites_fit_iff out)
  | debian status => exact (forall_const ℕ).trans (debianWrites_fit_iff status)
  | portage filename db => exact (forall_const ℕ).trans (portageWrites_fit_iff filename db)

/-! ## Long names -/

/-- The names in paths are as long as a file system allows. -/
def Components (path : Text) : Prop := ∀ name ∈ path.splitOn '/', name.length ≤ 255

instance (path : Text) : Decidable (Components path) := inferInstanceAs (Decidable (∀ _ ∈ _, _))

def Load.Components : Load → Prop
  | directory _ path out => Dufie.Components path ∧ ∀ d ∈ duList out, Dufie.Components d.dir
  | portage filename _ => Dufie.Components filename
  | _ => True

/-- A name of 123 characters. -/
def longName : FileName where
  text := List.replicate 123 'a'
  ne_nil := by decide
  slash := by decide
  dot := by decide
  dotDot := by decide
  length_le := by decide

/-- A category and a package that are both called so. -/
theorem not_load_fits : ¬ ∀ l : Load, l.Components → ∀ fuel, ∀ w ∈ l.writes fuel, w.Fits := by
  intro hall
  have hpath : Components "/var/db/pkg".toList := by decide
  have hshort := (load_fits_iff (.portage "/var/db/pkg".toList
    [.sub longName [.sub longName none]])).mp (hall _ hpath)
  have hle := hshort (.sub longName [.sub longName none]) List.mem_cons_self
    (.sub longName none) List.mem_cons_self
  have hlength : longName.text.length = 123 := List.length_replicate
  rw [dName_sub, dName_sub, hlength] at hle
  omega

end Backpack.Dufie
