import Backpack.Overlay
import Backpack.UnionFs

/-!
# The file systems under a union mount

The branches of a union are directories of other file systems. A `Tree` is one of them, with
what its directories list; the operations are those that unionfs calls on it.
-/

namespace Kernel

open Shell Overlay
open UnionFs (Path)

variable {α : Type}

inductive Errno where
  | EPERM
  | ENOENT
  | EIO
  | E2BIG
  | EBADF
  | EBUSY
  | EEXIST
  | EXDEV
  | ENOTDIR
  | EISDIR
  | EINVAL
  | EROFS
  | ENOTEMPTY
deriving DecidableEq, Repr

/-- A directory tree with the listing of each directory, in the order of the lower file system. -/
structure Tree (α : Type) where
  node : Flat Text α
  list : Path → List Text
  root : node.IsDirAt []
  closed : node.Closed
  mem_list : ∀ d n, n ∈ list d ↔ node (d ++ [n]) ≠ none
  nodup_list : ∀ d, (list d).Nodup

/-- A file system with nothing in it. -/
def Tree.empty (a : α) : Tree α where
  node q := if q = [] then some (.dir a) else none
  list _ := []
  root := by simp [Flat.IsDirAt, Inode.isDir]
  closed d n h := by simp at h
  mem_list d n := by simp
  nodup_list _ := List.nodup_nil

/-- What is no directory has no entries. -/
theorem Tree.list_eq_nil {t : Tree α} {d : Path} (h : ¬ t.node.IsDirAt d) : t.list d = [] := by
  rw [List.eq_nil_iff_forall_not_mem]
  intro n hn
  exact h (t.closed d n ((t.mem_list d n).mp hn))

/-- A new entry in the directory `d`. -/
def Tree.insert (t : Tree α) (d : Path) (n : Text) (i : Inode α) (hd : t.node.IsDirAt d)
    (hn : t.node (d ++ [n]) = none) : Tree α where
  node q := if q = d ++ [n] then some i else t.node q
  list q := if q = d then t.list d ++ [n] else t.list q
  root := by
    have h : ([] : Path) ≠ d ++ [n] := by simp
    simpa [Flat.IsDirAt, h] using t.root
  closed := by
    intro p m hm
    have hp : t.node.IsDirAt p := by
      by_cases h : p ++ [m] = d ++ [n]
      · have ⟨hpd, _⟩ := List.append_inj' h rfl
        exact hpd ▸ hd
      · simp only [h, if_false] at hm
        exact t.closed p m hm
    have hne : p ≠ d ++ [n] := fun h => hp.ne_none (h ▸ hn)
    simpa [Flat.IsDirAt, hne] using hp
  mem_list := by
    intro q m
    by_cases hq : q = d
    · subst hq
      by_cases hm : m = n
      · simp [hm]
      · simp [hm, t.mem_list]
    · have h : q ++ [m] ≠ d ++ [n] := fun h => hq (List.append_inj' h rfl).1
      simp [hq, h, t.mem_list]
  nodup_list := by
    intro q
    by_cases hq : q = d
    · have h : n ∉ t.list d := fun h => (t.mem_list d n).mp h hn
      simp only [hq, if_true]
      rw [List.nodup_append]
      refine ⟨t.nodup_list d, by simp, fun a ha b hb hab => ?_⟩
      rw [List.mem_singleton.mp hb] at hab
      exact h (hab ▸ ha)
    · simpa [hq] using t.nodup_list q

/-- An entry in which nothing is goes away. -/
def Tree.erase (t : Tree α) (d : Path) (n : Text) (hl : t.list (d ++ [n]) = []) : Tree α where
  node q := if q = d ++ [n] then none else t.node q
  list q := if q = d then (t.list d).erase n else t.list q
  root := by
    have h : ([] : Path) ≠ d ++ [n] := by simp
    simpa [Flat.IsDirAt, h] using t.root
  closed := by
    intro p m hm
    by_cases h : p ++ [m] = d ++ [n]
    · simp [h] at hm
    · simp only [h, if_false] at hm
      have hne : p ≠ d ++ [n] := by
        intro heq
        have hlisted := (t.mem_list p m).mpr hm
        rw [heq, hl] at hlisted
        exact absurd hlisted List.not_mem_nil
      simpa [Flat.IsDirAt, hne] using t.closed p m hm
  mem_list := by
    intro q m
    by_cases hq : q = d
    · subst hq
      by_cases hm : m = n
      · simp [hm, (t.nodup_list q).not_mem_erase]
      · simp [hm, t.mem_list, List.mem_erase_of_ne hm]
    · have h : q ++ [m] ≠ d ++ [n] := fun h => hq (List.append_inj' h rfl).1
      simp [hq, h, t.mem_list]
  nodup_list := by
    intro q
    by_cases hq : q = d
    · simpa [hq] using (t.nodup_list d).erase n
    · simpa [hq] using t.nodup_list q

/-- An entry is changed, but stays a directory or something else. -/
def Tree.update (t : Tree α) (p : Path) (i : Inode α)
    (hi : (t.node p).map Inode.isDir = some i.isDir) : Tree α where
  node := t.node.alter p i
  list := t.list
  root := by
    by_cases h : p = []
    · subst h
      have ⟨j, hroot, hj⟩ := Flat.isDirAt_iff.mp t.root
      rw [hroot] at hi
      simp only [Option.map_some, Option.some.injEq] at hi
      simp [Flat.IsDirAt, Flat.alter, ← hi, hj]
    · simpa [Flat.IsDirAt, Flat.alter, Ne.symm h] using t.root
  closed := by
    intro q m hm
    have hq : t.node.IsDirAt q := by
      by_cases h : q ++ [m] = p
      · apply t.closed q m
        intro hp
        rw [← h, hp] at hi
        simp at hi
      · simp only [Flat.alter, h, if_false] at hm
        exact t.closed q m hm
    by_cases h : q = p
    · have ⟨j, hnode, hj⟩ := Flat.isDirAt_iff.mp hq
      rw [← h, hnode] at hi
      simp only [Option.map_some, Option.some.injEq] at hi
      simp [Flat.IsDirAt, Flat.alter, h, ← hi, hj]
    · simpa [Flat.IsDirAt, Flat.alter, h] using hq
  mem_list := by
    intro q m
    by_cases h : q ++ [m] = p
    · rw [t.mem_list]
      have hp : t.node p ≠ none := by
        intro hnone
        rw [hnone] at hi
        simp at hi
      simp [Flat.alter, h, hp]
    · simp [Flat.alter, h, t.mem_list]
  nodup_list := t.nodup_list

/-! ## The operations of a lower file system -/

/-- `vfs_create`, `vfs_mkdir`, `vfs_mknod` and `vfs_symlink`, by what is made. -/
def Tree.add (t : Tree α) (d : Path) (n : Text) (i : Inode α) : Except Errno (Tree α) :=
  if hd : t.node.IsDirAt d then
    if hn : t.node (d ++ [n]) = none then .ok (t.insert d n i hd hn) else .error .EEXIST
  else .error .ENOTDIR

def Tree.vfsUnlink (t : Tree α) (d : Path) (n : Text) : Except Errno (Tree α) :=
  if t.node (d ++ [n]) = none then .error .ENOENT
  else if hd : t.node.IsDirAt (d ++ [n]) then .error .EISDIR
  else .ok (t.erase d n (t.list_eq_nil hd))

def Tree.vfsRmdir (t : Tree α) (d : Path) (n : Text) : Except Errno (Tree α) :=
  if t.node (d ++ [n]) = none then .error .ENOENT
  else if t.node.IsDirAt (d ++ [n]) then
    if hl : t.list (d ++ [n]) = [] then .ok (t.erase d n hl) else .error .ENOTEMPTY
  else .error .ENOTDIR

/-- `notify_change`: other attributes, and for a file another size. -/
def Tree.notifyChange (t : Tree α) (p : Path) (i : Inode α) : Except Errno (Tree α) :=
  if hi : (t.node p).map Inode.isDir = some i.isDir then .ok (t.update p i hi) else .error .ENOENT

/-- `vfs_rename` of a file within a directory, to a name that is not there. -/
def Tree.vfsRename (t : Tree α) (d : Path) (old new : Text) : Except Errno (Tree α) :=
  match t.node (d ++ [old]) with
  | none => .error .ENOENT
  | some i => do
    let t ← t.vfsUnlink d old
    t.add d new i

/-- A name that is free can be added to a directory. -/
theorem Tree.add_ok {t : Tree α} {d : Path} {n : Text} (hd : t.node.IsDirAt d)
    (hn : t.node (d ++ [n]) = none) (i : Inode α) : t.add d n i = .ok (t.insert d n i hd hn) := by
  simp [Tree.add, hd, hn]

/-- A name that is no directory can be unlinked. -/
theorem Tree.vfsUnlink_ok {t : Tree α} {d : Path} {n : Text} (hn : t.node (d ++ [n]) ≠ none)
    (hd : ¬ t.node.IsDirAt (d ++ [n])) :
    t.vfsUnlink d n = .ok (t.erase d n (t.list_eq_nil hd)) := by
  simp [Tree.vfsUnlink, hn, hd]

/-! ## The branches of a union -/

/-- A branch: its file system, the permission it was given in the union, and whether the file
system itself is mounted read-only. -/
structure Branch (α : Type) where
  tree : Tree α
  mayWrite : Bool
  rdonly : Bool

/-- The branches, from the left. -/
abbrev Stack (α : Type) := List (Branch α)

/-- What branch `i` has at `p`. -/
def Stack.node (s : Stack α) (i : Nat) (p : Path) : Option (Inode α) :=
  s[i]?.bind fun b => b.tree.node p

/-- `is_robranch_super`: the error for a branch that was not given write permission. -/
def isRobranchSuper (s : Stack α) (i : Nat) : Except Errno Unit :=
  if s[i]?.any Branch.mayWrite then .ok () else .error .EROFS

/-- `is_robranch`: also when the file system of the branch is mounted read-only. -/
def isRobranch (s : Stack α) (i : Nat) : Except Errno Unit :=
  if s[i]?.any fun b => b.mayWrite && !b.rdonly then .ok () else .error .EROFS

/-- A change to the file system of branch `i`, which fails when it is mounted read-only. -/
def Stack.onTree (s : Stack α) (i : Nat) (f : Tree α → Except Errno (Tree α)) :
    Except Errno (Stack α) :=
  match s[i]? with
  | none => .error Errno.EIO
  | some b =>
    if b.rdonly then .error .EROFS
    else do
      let t ← f b.tree
      .ok (s.set i { b with tree := t })

end Kernel
