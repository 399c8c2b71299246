import Backpack.Dufie.Slackware
import Backpack.Shell.Commands

/-!
# The packages of Portage

`on_mnuPortage_activate` walks over a directory with a directory for each category, which has a
directory for each package. The file `CONTENTS` of a package lists what it has installed, and the
size of a package is that of these files now.
-/

namespace Backpack.Dufie

open Shell Libc

/-! ## The database -/

/-- What a file can be called. -/
structure FileName where
  text : Text
  ne_nil : text ≠ []
  slash : '/' ∉ text
  dot : text ≠ ['.']
  dotDot : text ≠ ['.', '.']
  length_le : text.length ≤ 255

/-- An entry of a directory, as `readdir` returns it. -/
inductive DirEntry (α : Type) where
  | self
  | parent
  | sub (name : FileName) (a : α)

def DirEntry.dName {α : Type} : DirEntry α → Text
  | self => ['.']
  | parent => ['.', '.']
  | sub name _ => name.text

@[simp] theorem dName_sub {α : Type} (name : FileName) (a : α) :
    (DirEntry.sub name a).dName = name.text := rfl

/-- A line of `CONTENTS`. -/
inductive Installed where
  | dir (path : Text)
  | sym (rest : Text)
  | obj (path md5 mtime : Text)

def Installed.line : Installed → Text
  | dir path => "dir ".toList ++ path
  | sym rest => "sym ".toList ++ rest
  | obj path md5 mtime => "obj ".toList ++ (path ++ ' ' :: (md5 ++ ' ' :: mtime))

/-- Only a path can have spaces in it. -/
def Installed.Fields : Installed → Prop
  | obj _ md5 mtime => ' ' ∉ md5 ∧ ' ' ∉ mtime
  | _ => True

/-- The file `CONTENTS`, with the lines that are in it. -/
structure Contents where
  text : Text
  lines : List Installed
  text_lines : fileLines text = lines.map Installed.line
  fields : ∀ l ∈ lines, l.Fields
  short : ShortLines 2048 text
  noZero : ∀ l ∈ lines, '\x00' ∉ l.line

/-- The directory of a package, with or without the file. -/
abbrev Package := Option Contents

abbrev Category := List (DirEntry Package)

abbrev Database := List (DirEntry Category)

/-! ## The files of a package -/

/-- The `st_size` of a file, if there is one. -/
abbrev FileSizes := Text → Option ℕ

def objKey : Text := "obj".toList

/-- What the loop over the lines keeps. -/
structure ObjState where
  indiv : ℤ
  tmp : Text

/-- A turn of the loop over the lines. -/
def readInstalled (stat : FileSizes) (s : ObjState) (line : Text) : Option ObjState :=
  let tmp := store line s.tmp
  let rest := string (tmp.drop 4)
  if hasKey objKey (string tmp) ∧ ' ' ∈ rest then
    -- the path goes up to the first space
    let path := rest.takeWhile (· ≠ ' ')
    let tmp := tmp.set (4 + path.length) '\x00'
    match stat path with
    | none => some { s with tmp := tmp }
    | some size => do
      let indiv ← long (s.indiv + (size / 1024 : ℕ))
      some ⟨indiv, '\x00' :: tmp.drop 1⟩
  else some { s with tmp := '\x00' :: tmp.drop 1 }

/-! ## The strings in `name` -/

def processing : Text := "Processing ".toList

def contentsFile : Text := "CONTENTS".toList

/-- `malloc(strlen(filename) + NAME_MAX + 2)` -/
def nameSize (filename : Text) : ℕ := filename.length + 255 + 2

/-- What is made in `name` for an entry of a category, where `opened` says whether it has the
file. -/
def entryWrites (filename type pkg : Text) (opened : Bool) : List BufferWrite :=
  (if pkg.length < filename.length + 255 - 12 then
    [⟨nameSize filename, processing ++ pkg ++ dots⟩] else []) ++
  assemble (nameSize filename) [] [filename, ['/'], type, ['/'], pkg, '/' :: contentsFile] ++
  if opened then assemble (nameSize filename) [] [['/'], type, ['/'], pkg] else []

/-! ## The loops -/

/-- What `fopen` finds under an entry. The entries `.` and `..` have the file if a package or a
category is called so, and no line comes from that directory. -/
def openContents (db : Database) (cat : Category) : DirEntry Package → Option Text
  | .self => if cat.any fun e => e.dName = contentsFile then some [] else none
  | .parent => if db.any fun e => e.dName = contentsFile then some [] else none
  | .sub _ pkg => pkg.map (·.text)

/-- The list, the sums so far, and `tmp`. -/
structure PortageState where
  dir : List DirHelp
  group : ℤ
  cumul : ℤ
  tmp : Text

/-- A turn of the loop over a category. A string that does not fit in `name` leaves nothing
defined. -/
def readPackage (stat : FileSizes) (filename : Text) (db : Database) (type : Text) (cat : Category)
    (s : PortageState) (e : DirEntry Package) : Option PortageState :=
  let contents := openContents db cat e
  if ∀ w ∈ entryWrites filename type e.dName contents.isSome, w.Fits then
    match contents with
    | none => some s
    | some text => do
      let r ← (fgetsAll 2048 text).foldlM (readInstalled stat) ⟨0, s.tmp⟩
      let group ← long (s.group + r.indiv)
      let cumul ← long (s.cumul + r.indiv)
      some ⟨add s.dir ('/' :: type ++ '/' :: e.dName) r.indiv, group, cumul, r.tmp⟩
  else none

/-- The entries of a category. -/
def DirEntry.category : DirEntry Category → Category
  | sub _ cat => cat
  | _ => []

@[simp] theorem category_sub (name : FileName) (cat : Category) :
    (DirEntry.sub name cat).category = cat := rfl

/-- A turn of the loop over the database. What it makes in `name` itself always fits. -/
def readCategory (stat : FileSizes) (filename : Text) (db : Database) (s : PortageState)
    (e : DirEntry Category) : Option PortageState :=
  if e.dName = ['.'] ∨ e.dName = ['.', '.'] then some s
  else do
    let s ← e.category.foldlM (readPackage stat filename db e.dName e.category)
      { s with group := 0 }
    some { s with dir := add s.dir ('/' :: e.dName) s.group }

/-- The list that is built from a database, when `tmp` has the bytes `tmp` before. -/
def portagePackages (stat : FileSizes) (filename tmp : Text) (db : Database) :
    Option (List DirHelp) :=
  (db.foldlM (readCategory stat filename db) ⟨[], 0, 0, tmp⟩).map fun s =>
    add s.dir ['/'] s.cumul

/-! ## The list that is wanted -/

/-- The kilobytes of a file, where `path` says how the path in a line is read. -/
def Installed.size (stat : FileSizes) (path : Text → Text) : Installed → ℕ
  | obj p _ _ => (stat (path p)).getD 0 / 1024
  | _ => 0

def Contents.size (stat : FileSizes) (path : Text → Text) (c : Contents) : ℕ :=
  (c.lines.map (Installed.size stat path)).sum

/-- The file of a package. -/
def DirEntry.contents : DirEntry Package → List Contents
  | sub _ (some c) => [c]
  | _ => []

/-- A line of the view: a path, and the packages that it stands for. -/
abbrev ViewLine := Text × List Contents

def packageLines (type : FileName) (e : DirEntry Package) : List ViewLine :=
  e.contents.map fun c => ('/' :: type.text ++ '/' :: e.dName, [c])

/-- The packages that have the file, and the category. -/
def categoryLines : DirEntry Category → List ViewLine
  | .sub type cat =>
    cat.flatMap (packageLines type) ++ [('/' :: type.text, cat.flatMap DirEntry.contents)]
  | _ => []

/-- All packages that have the file. -/
def allContents (db : Database) : List Contents :=
  db.flatMap fun e => e.category.flatMap DirEntry.contents

def viewLines (db : Database) : List ViewLine :=
  db.flatMap categoryLines ++ [(['/'], allContents db)]

/-- The size of some packages. -/
def sizeOfAll (stat : FileSizes) (path : Text → Text) (cs : List Contents) : ℕ :=
  (cs.map (Contents.size stat path)).sum

/-- The elements with their sizes. -/
def sized (stat : FileSizes) (path : Text → Text) (ls : List ViewLine) : List DirHelp :=
  ls.map fun l => ⟨l.1, sizeOfAll stat path l.2⟩

/-- The path does not end in `.` or `..`. -/
def Named (path : Text) : Prop := lastComponent path ≠ ['.'] ∧ lastComponent path ≠ ['.', '.']

instance (path : Text) : Decidable (Named path) := inferInstanceAs (Decidable (_ ∧ _))

/-- The path up to its first space. -/
def cutPath (p : Text) : Text := p.takeWhile (· ≠ ' ')

/-- A file whose path has a space in it. -/
def Installed.spaced : Installed → Bool
  | obj p _ _ => ' ' ∈ p
  | _ => false

/-- The kilobytes of the files of a package whose paths have spaces in them. -/
def Contents.spacedSize (stat : FileSizes) (path : Text → Text) (c : Contents) : ℕ :=
  ((c.lines.filter Installed.spaced).map (Installed.size stat path)).sum

/-- The names of a category and of its entries fit in `name`; where paths have spaces, the files at
the cut paths have as many kilobytes as the right ones; and a `long` can hold the sum. -/
structure Countable (stat : FileSizes) (db : Database) : Prop where
  names : ∀ e ∈ db, ∀ e' ∈ e.category, e.dName.length + e'.dName.length ≤ 245
  paths : ∀ c ∈ allContents db, c.spacedSize stat cutPath = c.spacedSize stat id
  total : sizeOfAll stat id (allContents db) < 2 ^ 63

end Backpack.Dufie
