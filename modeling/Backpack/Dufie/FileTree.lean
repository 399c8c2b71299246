import Backpack.Shell.Text

/-!
# The tree of directories

Dufie keeps the directories that it has read in a linked list. `create_file_tree` makes the rows
of the tree view from it: it looks for the path that it is given, then for the directories in
it, and calls itself for each of these.
-/

namespace Backpack.Dufie

open Shell

/-! ## The list -/

/-- An element of the list. A list without elements is a head with `dir` and `next` zero. -/
structure DirHelp where
  dir : Text
  size : ℤ
deriving DecidableEq

/-- `add`: at the end of the list. -/
def add (main : List DirHelp) (d : Text) (s : ℤ) : List DirHelp := main ++ [⟨d, s⟩]

/-- The list after some calls of `add`. -/
def addAll (ds : List DirHelp) : List DirHelp := ds.foldl (fun main x => add main x.dir x.size) []

/-! ## Sizes -/

/-- `a / b`, to the nearest integer and from the middle to the even one. -/
def roundDiv (a b : ℕ) : ℕ :=
  let q := a / b
  let r := a % b
  if 2 * r < b then q else if b < 2 * r then q + 1 else q + q % 2

/-- An integer as a `double`. -/
def toDouble (n : ℕ) : ℕ :=
  if n < 2 ^ 53 then n else roundDiv n (2 ^ (n.log2 - 52)) * 2 ^ (n.log2 - 52)

/-- `%.1f` of `num / d`. -/
def oneDigit (num d : ℕ) : Text :=
  let t := roundDiv (10 * toDouble num) d
  Nat.toDigits 10 (t / 10) ++ '.' :: Nat.toDigits 10 (t % 10)

/-- What `readable` writes for a number of kilobytes. -/
def readable (num : ℤ) : Text :=
  if 1000000000 ≤ num then oneDigit num.toNat 1073741824 ++ "TB".toList
  else if 1000000 ≤ num then oneDigit num.toNat 1048576 ++ "GB".toList
  else if 1000 ≤ num then oneDigit num.toNat 1024 ++ "MB".toList
  else (if num < 0 then ['-'] else []) ++ Nat.toDigits 10 (toDouble num.natAbs) ++ "KB".toList

/-- `"%s (%s)"` -/
def label (name : Text) (size : ℤ) : Text := name ++ " (".toList ++ readable size ++ [')']

/-- The text of a size fits in the 12 bytes of `size`, and what is printed around it in the 14 bytes
that `out` has beside the name, the final zeros included. -/
def Fits (size : ℤ) : Prop :=
  (readable size).length + 1 ≤ 12 ∧ ∀ name, (label name size).length + 1 ≤ name.length + 14

theorem fits_iff {size : ℤ} : Fits size ↔ (readable size).length ≤ 10 := by
  have hlabel : ∀ name, (label name size).length = name.length + 3 + (readable size).length := by
    intro name
    simp only [label, List.length_append, List.length_singleton, String.length_toList]
    have htwo : " (".length = 2 := rfl
    omega
  simp only [Fits, hlabel]
  constructor
  · rintro ⟨-, h⟩
    have hnil := h []
    rw [List.length_nil] at hnil
    omega
  · intro h
    exact ⟨by omega, fun name => by omega⟩

instance (size : ℤ) : Decidable (Fits size) := decidable_of_iff _ fits_iff.symm

/-! ## The rows -/

/-- A row of the `GtkTreeStore`: the row that it is a child of, and its columns. -/
structure Row where
  parent : Option ℕ
  size : ℤ
  label : Text
deriving DecidableEq

/-- The rows in the order in which they were appended, so that a row is known by its number and
the children of a row are in the order of their numbers. -/
abbrev TreeStore := List Row

/-- The loop over `x`: how many characters `path` and `dir` have in common. -/
def common : Text → Text → ℕ
  | [], _ => 0
  | _ :: _, [] => 0
  | p :: ps, d :: ds => if d = p then common ps ds + 1 else 0

/-- What is done with one element of the list. -/
inductive Turn where
  | skip
  | root
  | child (name : Text)
deriving DecidableEq

def turn (path : Text) (parent : Option ℕ) (dir : Text) : Turn :=
  let x := common path dir
  if x ≠ path.length then .skip
  else if parent = none then
    if dir[x]? = none then .root else .skip
  else if (dir[x]? = some '/' ∧ '/' ∉ dir.drop (x + 1)) ∨ (x = 1 ∧ '/' ∉ dir.drop 1) then
    .child (dir.drop ((if x = 1 then 0 else x) + 1))
  else .skip

/-- The loop of `create_file_tree`, from the element at the head of `sub` on, and with it the
calls for the directories found. `dir` is the whole list, `child` the row that was appended
last by this call. -/
def treeLoop (dir : List DirHelp) : ℕ → Text → Option ℕ → List DirHelp → TreeStore → Option ℕ →
    Option (TreeStore × Option ℕ)
  | 0, _, _, _, _, _ => none
  | _ + 1, _, _, [], store, child => some (store, child)
  | fuel + 1, path, parent, e :: rest, store, child =>
    if rest = [] ∧ parent ≠ none then some (store, child)
    else
      -- `if (sub->next) sub = sub->next;`, so the last element is not left
      let next := if rest = [] then [e] else rest
      match turn path parent e.dir with
      | .skip => treeLoop dir fuel path parent next store child
      | .root =>
        (treeLoop dir fuel e.dir (some store.length) dir
          (store ++ [⟨none, e.size, label e.dir e.size⟩]) none).map
            fun r => (r.1, some store.length)
      | .child name =>
        (treeLoop dir fuel e.dir (some store.length) dir
          (store ++ [⟨parent, e.size, label name e.size⟩]) none).bind
            fun r => treeLoop dir fuel path parent next r.1 (some store.length)

/-- `create_file_tree(dir, path, treestore, NULL)`: the rows afterwards and the iterator that is
returned. -/
def createFileTree (fuel : ℕ) (dir : List DirHelp) (path : Text) (store : TreeStore) :
    Option (TreeStore × Option ℕ) :=
  treeLoop dir fuel path none dir store none

/-- The tree that `create_file_tree` leaves. A text that does not fit in its buffer is written over
the heap, and then there is none. -/
def fileTree (fuel : ℕ) (dir : List DirHelp) (path : Text) (store : TreeStore) :
    Option (TreeStore × Option ℕ) := do
  let r ← createFileTree fuel dir path store
  if ∀ row ∈ r.1.drop store.length, Fits row.size then some r else none

end Backpack.Dufie
