import Backpack.Shell.Text

/-!
# Union file systems

A union of one read-write branch over a stack of read-only branches. All changes land in
the read-write branch; a deletion of something that a lower branch has is recorded there
as an entry `.wh.name`.
-/

namespace UnionFs

open Shell

/-- The names from the top directory down to an entry. -/
abbrev Path := List Text

/-- The entries of a directory tree, with what is there. -/
abbrev DirTree (α : Type) := Path → Option α

def emptyTree {α : Type} : DirTree α := fun _ => none

def whPrefix : Text := ['.', 'w', 'h', '.']

/-- The entry that records the deletion of `dir/name`. -/
def whiteout (dir : Path) (name : Text) : Path := dir ++ [whPrefix ++ name]

/-- A branch hides `p` of the branches below when it has a whiteout for it or for one of the
directories above it. -/
def hides {α : Type} (t : DirTree α) : Path → Path → Bool
  | _, [] => false
  | dir, name :: p => (t (whiteout dir name)).isSome || hides t (dir ++ [name]) p

/-- What the branches, top first, show at `p`. -/
def lookup {α : Type} : List (DirTree α) → Path → Option α
  | [], _ => none
  | t :: ts, p =>
    match t p with
    | some x => some x
    | none => if hides t [] p then none else lookup ts p

/-- A union: the read-write branch and the read-only ones, top first. -/
structure UnionMount (α : Type) where
  rw : DirTree α
  ro : List (DirTree α)

/-- What is seen in the union; the whiteouts themselves are not. -/
def UnionMount.visible {α : Type} (u : UnionMount α) (p : Path) : Option α :=
  if p.any fun name => whPrefix.isPrefixOf name then none else lookup (u.rw :: u.ro) p

/-- A change made through the union. -/
inductive Change (α : Type) where
  /-- `dir/name` is created or overwritten -/
  | put (dir : Path) (name : Text) (x : α)
  /-- `dir/name` and everything under it is deleted; `mark` is what the whiteout holds -/
  | delete (dir : Path) (name : Text) (mark : α)

/-- The directories above a changed entry are copied up. -/
def UnionMount.copyUp {α : Type} (u : UnionMount α) (dir : Path) : DirTree α := fun q =>
  if q ≠ [] ∧ q <+: dir then (u.rw q).or (u.visible q) else u.rw q

/-- The read-write branch after a change. -/
def UnionMount.write {α : Type} (u : UnionMount α) : Change α → DirTree α
  | .put dir name x => fun q =>
    if q = dir ++ [name] then some x
    else if q = whiteout dir name then none
    else u.copyUp dir q
  | .delete dir name mark => fun q =>
    let rest : DirTree α := fun q => if dir ++ [name] <+: q then none else u.rw q
    if dir ++ [name] <+: q then none
    else if q = whiteout dir name then
      if (UnionMount.visible ⟨rest, u.ro⟩ (dir ++ [name])).isSome then some mark else none
    else u.copyUp dir q

/-- The read-write branch after a sequence of changes. -/
def UnionMount.writeAll {α : Type} (u : UnionMount α) (cs : List (Change α)) : DirTree α :=
  cs.foldl (fun t c => UnionMount.write ⟨t, u.ro⟩ c) u.rw

/-- The top directory itself is never an entry. -/
theorem UnionMount.write_root {α : Type} {u : UnionMount α} (h : u.rw [] = none)
    (c : Change α) : u.write c [] = none := by
  cases c with
  | put dir name x =>
    have hname : ([] : Path) ≠ dir ++ [name] := by simp
    have hwhiteout : ([] : Path) ≠ whiteout dir name := by simp [whiteout]
    simp [UnionMount.write, hname, hwhiteout, UnionMount.copyUp, h]
  | delete dir name mark =>
    have hname : ¬ dir ++ [name] <+: [] := by simp
    have hwhiteout : ([] : Path) ≠ whiteout dir name := by simp [whiteout]
    simp [UnionMount.write, hname, hwhiteout, UnionMount.copyUp, h]

/-- No run of changes writes to the root itself. -/
theorem UnionMount.writeAll_root {α : Type} {u : UnionMount α} (h : u.rw [] = none)
    (cs : List (Change α)) : u.writeAll cs [] = none := by
  unfold UnionMount.writeAll
  induction cs generalizing u with
  | nil => exact h
  | cons c cs ih => exact @ih ⟨u.write c, u.ro⟩ (write_root h c)

end UnionFs
