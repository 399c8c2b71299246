import Backpack.Shell.Commands

/-!
# The Slackware package cache

The update loop of `compile.sh`: for each line of `TOGRAB.TXT` the other versions of the
package are removed from `slackware$bits`, then the file is downloaded if it is not there.
Downloads succeed.
-/

namespace Backpack.Build

open Shell

/-- A package file is called `name-version-arch-build.tgz`. -/
structure Package where
  name : Text
  version : Text
  arch : Text
  build : Text
  version_dash : '-' ∉ version
  arch_dash : '-' ∉ arch
  build_dash : '-' ∉ build

def Package.file (p : Package) : Text :=
  p.name ++ '-' :: (p.version ++ '-' :: (p.arch ++ '-' :: (p.build ++ ".tgz".toList)))

/-- A line of `TOGRAB.TXT`: the directory on the mirror and the package. -/
structure Entry where
  dir : Text
  package : Package

def Entry.line (e : Entry) : Text := e.dir ++ '/' :: e.package.file

/-- `TOGRAB.TXT`, in which each package name is listed once. -/
structure FileList where
  entries : List Entry
  once : (entries.map fun e => e.package.name).Nodup

def FileList.text (l : FileList) : Text := unlines (l.entries.map Entry.line)

/-- `slackware$bits`, and what the loop did to it. -/
structure Cache where
  files : List Text
  removed : List Text
  fetched : List Text

/-- `TEMP=${BASENAME/\-[[:digit:]I].*}` -/
def stem (base : Text) : Text := deleteMatch "\\-[[:digit:]I].*".toList base

/-- `ls slackware$bits | grep -E ^${TEMP}\-[[:digit:]I]`; the shell takes the backslash of the
unquoted word away, and finds no name beginning with `^` in the working directory. -/
def outdated (c : Cache) (base : Text) : List Text :=
  grep .extended ('^' :: (stem base ++ "-[[:digit:]I]".toList))
    (unlines (lsSort (c.files.filter fun f => f.head? ≠ some '.')))

/-- `rm slackware$bits/$DELETE`, for a name that is a word -/
def Cache.rm (c : Cache) (name : Text) : Cache :=
  if name ∈ c.files then
    { c with files := c.files.filter fun f => f ≠ name, removed := c.removed ++ [name] }
  else c

/-- `wget -nc -P slackware$bits "${SLACKWARE_MIRROR}$LINE"`, for a file that is missing -/
def Cache.wget (c : Cache) (line : Text) : Cache :=
  { c with files := lastComponent line :: c.files, fetched := c.fetched ++ [line] }

/-- The inner loop, in which `read` sees the output of `grep`. -/
def removeOutdated (base : Text) (c : Cache) : Cache :=
  (readValues (unlines (outdated c base))).foldl
    (fun c delete => if base ≠ delete then c.rm delete else c) c

/-- One line of `TOGRAB.TXT`. -/
def grab (c : Cache) (line : Text) : Cache :=
  let base := basename (words line)
  if stem base = [] then c
  else
    let c := removeOutdated base c
    if base ∉ c.files then c.wget line else c

/-- The loop, on a directory with these files. -/
def update (tograb : Text) (files : List Text) : Cache :=
  (readValues tograb).foldl grab ⟨files, [], []⟩

/-! ## What the cache is for -/

/-- `f` is a file of the package `name`, of any version. -/
def IsFileOf (name f : Text) : Prop := ∃ p : Package, p.file = f ∧ p.name = name

/-- The loop leaves the listed version of every listed package, and the other packages alone. -/
structure Converges (l : FileList) (files : List Text) : Prop where
  present : ∀ e ∈ l.entries, e.package.file ∈ (update l.text files).files
  only : ∀ e ∈ l.entries, ∀ f ∈ (update l.text files).files, IsFileOf e.package.name f →
    f = e.package.file
  untouched : ∀ f ∈ files, ∀ name, IsFileOf name f → (∀ e ∈ l.entries, e.package.name ≠ name) →
    f ∈ (update l.text files).files ∧ f ∉ (update l.text files).removed
  /-- the second time nothing is left to do -/
  stable : update l.text (update l.text files).files = ⟨(update l.text files).files, [], []⟩

/-! ## Package names -/

/-- The text before and after the last dash. -/
theorem append_dash_inj {a b c d : Text} (hb : '-' ∉ b) (hd : '-' ∉ d)
    (h : a ++ '-' :: b = c ++ '-' :: d) : a = c ∧ b = d := by
  rcases List.append_eq_append_iff.mp h with ⟨t, rfl, ht⟩ | ⟨t, rfl, ht⟩
  · cases t with
    | nil => simpa using ht
    | cons e t =>
      have hmem : b = t ++ '-' :: d := (List.cons.inj ht).2
      exact absurd (by simp [hmem]) hb
  · cases t with
    | nil => simpa [eq_comm] using ht
    | cons e t =>
      have hmem : d = t ++ '-' :: b := (List.cons.inj ht).2
      exact absurd (by simp [hmem]) hd

/-- A file belongs to one package. -/
theorem Package.name_eq_of_file_eq {p q : Package} (h : p.file = q.file) : p.name = q.name := by
  have hbuild : ∀ r : Package, '-' ∉ r.build ++ ".tgz".toList := by
    intro r hr
    rcases List.mem_append.mp hr with hr | hr
    · exact r.build_dash hr
    · exact absurd hr (by decide)
  unfold Package.file at h
  have hsplit : ∀ r : Package, r.name ++ '-' :: (r.version ++ '-' :: (r.arch ++ '-' ::
      (r.build ++ ".tgz".toList))) = ((r.name ++ '-' :: r.version) ++ '-' :: r.arch) ++ '-' ::
        (r.build ++ ".tgz".toList) := by
    intro r
    simp only [List.append_assoc, List.cons_append]
  rw [hsplit, hsplit] at h
  have harch := (append_dash_inj (hbuild p) (hbuild q) h).1
  have hversion := (append_dash_inj p.arch_dash q.arch_dash harch).1
  exact (append_dash_inj p.version_dash q.version_dash hversion).1

theorem Package.file_ne_nil (p : Package) : p.file ≠ [] := by simp [Package.file]

end Backpack.Build
