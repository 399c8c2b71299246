import Backpack.Shell.Commands

/-!
# Module lists and package files

Two readers of the same lists in `compile.sh`: the build loop looks for the package of each
entry, `--verify` matches all entries with the package files beforehand.
-/

namespace Backpack.Build

open Shell

/-- `bits` -/
inductive Bits where
  | b32
  | b64
deriving DecidableEq

def Bits.text : Bits → Text
  | .b32 => "32".toList
  | .b64 => "64".toList

inductive PackageDir where
  | slackware
  | dropline
  | extra
deriving DecidableEq

/-- `slackware$bits`, `dropline$bits` and `extra$bits` -/
def PackageDir.text (bits : Bits) : PackageDir → Text
  | .slackware => "slackware".toList ++ bits.text
  | .dropline => "dropline".toList ++ bits.text
  | .extra => "extra".toList ++ bits.text

/-- A character that can stand in the name of a package file. -/
def fileChar (c : Char) : Bool := !isSpace c && globOrdinary c && c != '/'

/-- A file `base.tgz` that `*.tgz` lists. -/
structure PackageFile where
  dir : PackageDir
  base : Text
  base_char : ∀ c ∈ base, fileChar c = true
  visible : (base ++ ".tgz".toList).head? ≠ some '.'

def PackageFile.file (p : PackageFile) : Text := p.base ++ ".tgz".toList

def PackageFile.path (bits : Bits) (p : PackageFile) : Text := p.dir.text bits ++ '/' :: p.file

/-- `ls $DIRS/*.tgz` -/
def lsTgz (bits : Bits) (files : List PackageFile) (dirs : List PackageDir) : List Text :=
  lsSort ((files.filter fun p => p.dir ∈ dirs).map (PackageFile.path bits))

/-- The entries of a list: the words of the lines that are not comments. -/
def master (list : Text) : List Text :=
  ((fileLines list).filter fun l =>
    !grepLine .extended "^[[:space:]]*#|^[[:space:]]*$".toList l).flatMap words

/-! ## The build loop -/

/-- `FILE=(${FILE/pat})`, of which `$FILE` is the first element -/
def cutOut (pat file : Text) : Text := (words (deleteMatch pat file)).headD []

/-- The directories and the name that the loop looks for, `none` for an entry that is not a
package or is for the other value of `bits`. -/
def request (bits : Bits) (entry : Text) : Option (List PackageDir × Text) :=
  if entry.take 4 = "CMD:".toList then none
  else if entry.take 7 = "IMPORT:".toList then none
  else if entry.take 7 = "IGNORE:".toList then none
  else if bits ≠ .b32 ∧ entry.take 3 = "32:".toList then none
  else if bits ≠ .b64 ∧ entry.take 3 = "64:".toList then none
  else
    let file := cutOut "64:".toList (cutOut "32:".toList entry)
    if file.take 6 = "EXTRA:".toList then some ([.extra], cutOut "EXTRA:".toList file)
    else if file.take 9 = "DROPLINE:".toList then
      some ([.dropline], cutOut "DROPLINE:".toList file)
    else if file.take 10 = "SLACKWARE:".toList then
      some ([.slackware], cutOut "SLACKWARE:".toList file)
    else some ([.slackware, .dropline, .extra], file)

/-- `` PACKAGE=`eval ls $DIRS/*.tgz 2>/dev/null|grep "\/${FILE}\-[[:digit:]I]"|tail -n 1` `` -/
def package (bits : Bits) (files : List PackageFile) (r : List PackageDir × Text) : Text :=
  (grep .basic ("\\/".toList ++ (r.2 ++ "\\-[[:digit:]I]".toList))
    (unlines (lsTgz bits files r.1))).getLastD []

/-- The names in the messages `Could not find package` for one list. -/
def couldNotFind (bits : Bits) (files : List PackageFile) (list : Text) : List Text :=
  (((master list).filterMap (request bits)).filter fun r => package bits files r = []).map
    Prod.snd

/-! ## `--verify` -/

/-- `MASTER=(${MASTER[*]/pat})` -/
def strip (pat : Text) (ms : List Text) : List Text := ms.flatMap fun m => words (deleteMatch pat m)

/-- What is left of the entries of a list. -/
def verifyMaster (bits : Bits) (ms : List Text) : List Text :=
  let ms := if bits = .b32 then strip "64:[^[:space:]]*".toList ms
    else strip "32:[^[:space:]]*".toList ms
  let ms := strip "IMPORT:[^[:space:]]*".toList ms
  let ms := strip "CMD:[^[:space:]]*".toList ms
  let ms := strip "SLACKWARE:".toList ms
  let ms := strip "DROPLINE:".toList ms
  let ms := strip "EXTRA:".toList ms
  let ms := strip "64:".toList ms
  strip "32:".toList ms

/-- `PACKAGES`, and the entries that `Could not find` names; with one of them `EXIT` is 1. -/
structure Verify where
  packages : List Text
  missing : List Text

/-- `cut -d: -f 2` for a line -/
def cutSecond (line : Text) : Text :=
  if ':' ∈ line then (line.splitOn ':').getD 1 [] else line

def isIgnore (entry : Text) : Bool := entry.take 7 == "IGNORE:".toList

/-- The name in `PACKAGES=(${PACKAGES[*]/[^[:space:]]*\/NAME\-[[:digit:]I][^[:space:]]*})` -/
def entryName (entry : Text) : Text :=
  if isIgnore entry then cutSecond entry else entry

def used (name : Text) : Text :=
  "[^[:space:]]*\\/".toList ++ (name ++ "\\-[[:digit:]I][^[:space:]]*".toList)

/-- One entry: its packages are taken out of `PACKAGES`. -/
def verifyEntry (s : Verify) (entry : Text) : Verify :=
  if isIgnore entry then { s with packages := strip (used (entryName entry)) s.packages }
  else if !noOutput (grep .basic ('/' :: (entry ++ "-[[:digit:]I]".toList)) (echo s.packages)) then
    { s with packages := strip (used entry) s.packages }
  else { s with missing := s.missing ++ [entry] }

/-- One list. -/
def verifyList (bits : Bits) (s : Verify) (list : Text) : Verify :=
  (verifyMaster bits (master list)).foldl verifyEntry s

def verify (bits : Bits) (files : List PackageFile) (lists : List Text) : Verify :=
  lists.foldl (verifyList bits) ⟨lsTgz bits files [.extra, .dropline, .slackware], []⟩

/-- `--verify` announces that all packages are there if and only if the build finds them. -/
def VerifyAgrees (bits : Bits) (files : List PackageFile) (lists : List Text) : Prop :=
  (verify bits files lists).missing = [] ↔ ∀ list ∈ lists, couldNotFind bits files list = []

/-! ## Which entry finds which package -/

/-- The file name begins with the name, a dash, and a digit or an `I`. -/
def Finds (name : Text) (p : PackageFile) : Prop :=
  ∃ c post, isVersion c = true ∧ p.file = name ++ '-' :: c :: post

end Backpack.Build
