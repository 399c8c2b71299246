import Backpack.Dufie.Slackware

/-!
# The packages of Debian

`on_mnuDebian_activate` makes the list from the status file of `dpkg`. It does not look at the
blank lines between the packages: a `Version` line adds an element with the name and the size
that were read last, wherever they stood. The head of the list is a local variable that is never
set.
-/

namespace Backpack.Dufie

open Shell Libc

/-! ## The loop over the lines -/

def packageKey : Text := "Package: ".toList

def installedKey : Text := "Installed-Size: ".toList

def versionKey : Text := "Version: ".toList

def comma : Text := ", ".toList

/-- The pointers that the head of the list holds before the first `add`. -/
structure Head where
  next : ℕ
  dir : ℕ

/-- An element of the list, or a head whose `dir` was never set. -/
inductive Cell where
  | wild (dir : ℕ)
  | elem (d : DirHelp)
deriving DecidableEq

/-- What is in the list before the first `add`. A `next` that was never set leads `add` astray,
and a `dir` that was never set counts as an element. -/
def Head.cells (head : Head) : Option (List Cell) :=
  if head.next ≠ 0 then none else some (if head.dir ≠ 0 then [.wild head.dir] else [])

/-- The list, and what the loop keeps from line to line. -/
structure StatusState where
  dir : List Cell
  name : Text
  indiv : ℤ
  cumul : ℤ

/-- A turn of the loop. -/
def readStatusLine (s : StatusState) (tmp : Text) : Option StatusState :=
  if hasKey packageKey tmp then
    -- `name[strlen(name) - 1] = 0`, which is before the buffer if the name is empty
    if tmp.drop 9 = [] then none else some { s with name := (tmp.drop 9).dropLast }
  else if hasKey installedKey tmp then do
    let indiv ← atol (tmp.drop 16)
    let cumul ← long (s.cumul + indiv)
    some { s with indiv := indiv, cumul := cumul }
  else if hasKey versionKey tmp then
    let spec := '/' :: s.name ++ comma ++ tmp.drop 9
    if spec.length + 1 ≤ 2048 then
      some { s with dir := s.dir ++ [.elem ⟨spec.dropLast, s.indiv⟩] }
    else none
  else some s

/-- The list that is built from a status file. -/
def debianPackages (head : Head) (t : Text) : Option (List Cell) := do
  let cells ← head.cells
  let s ← (fgetsAll 2048 t).foldlM readStatusLine ⟨cells, [], 0, 0⟩
  some (s.dir ++ [.elem ⟨['/'], s.cumul⟩])

/-! ## The list that is wanted -/

/-- A line that separates stanzas. -/
def blank (l : Text) : Bool := l.all fun c => c == ' ' || c == '\t'

/-- The lines between blank lines. -/
def stanzas : List Text → List (List Text)
  | [] => [[]]
  | l :: ls => if blank l then [] :: stanzas ls else (stanzas ls).modifyHead (l :: ·)

/-- What stands after a key in a stanza. -/
def value (key : Text) (st : List Text) : Option Text :=
  (st.find? (hasKey key)).map (·.drop key.length)

/-- The number of the `Installed-Size` line, 0 without one. -/
def sizeOf (st : List Text) : ℤ := ((value installedKey st).map number).getD 0

/-- The element for a stanza with both lines. -/
def wantedEntry (st : List Text) : Option DirHelp :=
  (value packageKey st).bind fun p => (value versionKey st).map fun v =>
    ⟨'/' :: p ++ comma ++ v, sizeOf st⟩

/-- A status file: one line of a kind in a stanza at most, short lines, and no zeros. -/
structure StatusFile (t : Text) : Prop where
  unique : ∀ st ∈ stanzas (fileLines t), ∀ key ∈ [packageKey, installedKey, versionKey],
    (st.filter (hasKey key)).length ≤ 1
  short : ShortLines 2048 t
  noZero : '\x00' ∉ t

/-! ## What the lines above give -/

/-- The value of the last `Package` line. -/
def lastName : Text → List Text → Text
  | name, [] => name
  | name, l :: ls => lastName (if hasKey packageKey l then l.drop 9 else name) ls

/-- The number of the last `Installed-Size` line. -/
def lastSize : ℤ → List Text → ℤ
  | size, [] => size
  | size, l :: ls => lastSize (if hasKey installedKey l then number (l.drop 16) else size) ls

/-- The lines of a stanza before its `Version` line. -/
def above (st : List Text) : List Text := st.takeWhile fun l => !hasKey versionKey l

/-- The lines above the `Version` line of a stanza, `name` and `size` being what earlier stanzas
leave, give the name and the size of that stanza. -/
def Owned (name : Text) (size : ℤ) (st : List Text) : Prop :=
  value versionKey st = none ∨
    value packageKey st = some (lastName name (above st)) ∧ lastSize size (above st) = sizeOf st

end Backpack.Dufie
