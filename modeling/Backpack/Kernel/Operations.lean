import Backpack.Kernel.Lookup

/-!
# What unionfs does to its branches

The operations on files and directories of a union, each as the source makes it from
operations on the branches: a branch that may not be written to answers `EROFS`, and the
branch left of it is tried, with the directories above the entry made there first. A name
of the branches to the right is deleted by an empty file `.wh.name`.

The state is what the branches hold. Dentries are as a new lookup finds them, and the
operations of the lower file systems do not fail for other reasons than the state of their
entries.
-/

namespace Kernel

open Shell Overlay
open UnionFs (Path whPrefix)

variable {α : Type}

/-- The attributes of an inode, and what a file holds. -/
def attrOf : Inode α → α
  | .dir a => a
  | .reg a => a
  | .other a => a

/-! ## Directories above an entry -/

/-- The first loop of `create_parents_named`: the nearest directory at or above `dir` that has a
hidden dentry in the branch. -/
def nearestParent (s : Stack α) (bindex : Nat) (dir : Path) : Path :=
  (dir.inits.reverse.find? fun q =>
    match dentryOf s q with
    | .ok d => (d.hidden bindex).isSome
    | .error _ => false).getD []

/-- The second loop of `create_parents_named`: the directories below `parent` on the path. Their
attributes are those of the directories of the union, whose state was `s0`. -/
def makeParents (s0 : Stack α) (bindex : Nat) : Stack α → Path → Path → Except Errno (Stack α)
  | s, _, [] => .ok s
  | s, parent, n :: rest =>
    if (s.node bindex (parent ++ [n])).isSome then makeParents s0 bindex s (parent ++ [n]) rest
    else
      match inodeOf s0 (parent ++ [n]) with
      | none => .error .ENOENT
      | some i => do
        let s ← s.onTree bindex fun t => t.add parent n (.dir (attrOf i))
        makeParents s0 bindex s (parent ++ [n]) rest

/-- `create_parents`: the directories down to `dir` in the branch. -/
def createParents (s : Stack α) (dir : Path) (bindex : Nat) : Except Errno (Stack α) := do
  isRobranchSuper s bindex
  let top := nearestParent s bindex dir
  makeParents s bindex s top (dir.drop top.length)

/-- The branch of a dentry as it is, or with the directories above the entry when the dentry has
nothing there. -/
def withParents (s : Stack α) (d : Dentry α) (dir : Path) (bindex : Nat) :
    Except Errno (Stack α) :=
  if (d.hidden bindex).isSome then .ok s else createParents s dir bindex

/-! ## Whiteouts -/

/-- The loop of `create_whiteout`, over the branches left of the given number; `err` is the error
of the last branch that was tried. -/
def createWhiteoutLoop (s : Stack α) (d : Dentry α) (dir : Path) (name : Text) (mark : α) :
    Errno → Nat → Except Errno (Stack α)
  | err, 0 => .error err
  | err, bindex + 1 =>
    match withParents s d dir bindex with
    | .error _ => createWhiteoutLoop s d dir name mark err bindex
    | .ok s1 =>
      if (s1.node bindex (dir ++ [allocWhname name])).isSome then .ok s1
      else
        match (do
          isRobranchSuper s1 bindex
          s1.onTree bindex fun t => t.add dir (allocWhname name) (.reg mark)) with
        | .ok s2 => .ok s2
        | .error .EROFS => createWhiteoutLoop s d dir name mark .EROFS bindex
        | .error e => .error e

/-- `create_whiteout`: in the branch `start` or the first one left of it that can be written. -/
def createWhiteout (s : Stack α) (d : Dentry α) (dir : Path) (name : Text) (mark : α)
    (start : Nat) : Except Errno (Stack α) :=
  createWhiteoutLoop s d dir name mark .EINVAL (start + 1)

/-- `make_dir_opaque` -/
def makeDirOpaque (s : Stack α) (p : Path) (mark : α) (bindex : Nat) : Except Errno (Stack α) :=
  if (s.node bindex (p ++ [unionfsDirOpaque])).isSome then .ok s
  else s.onTree bindex fun t => t.add p unionfsDirOpaque (.reg mark)

/-! ## New entries -/

/-- The loops of `unionfs_create`, `unionfs_symlink`, `unionfs_mknod` and `unionfs_mkdir` over
the branches left of the given number, with the branch in which `x` was made. The first two keep
the error of `create_parents`, the others that of the branch before. -/
def makeLoop (s : Stack α) (d : Dentry α) (dir : Path) (name : Text) (x : Inode α)
    (keepErr : Bool) : Errno → Nat → Except Errno (Stack α × Nat)
  | err, 0 => .error err
  | err, bindex + 1 =>
    match withParents s d dir bindex with
    | .error e => makeLoop s d dir name x keepErr (if keepErr then e else err) bindex
    | .ok s1 =>
      match (do
        isRobranchSuper s1 bindex
        s1.onTree bindex fun t => t.add dir name x) with
      | .ok s2 => .ok (s2, bindex)
      | .error .EROFS => makeLoop s d dir name x keepErr .EROFS bindex
      | .error e => .error e

/-- `unionfs_create` once the leftmost branch of the entry is known: a whiteout there becomes the
new file. -/
def createFrom (s : Stack α) (d : Dentry α) (dir : Path) (name : Text) (a : α) (bstart : Nat) :
    Except Errno (Stack α) :=
  if (s.node bstart (dir ++ [allocWhname name])).isSome then
    -- errors of `notify_change` are ignored
    let s1 := ((s.onTree bstart fun t => t.notifyChange (dir ++ [allocWhname name])
      (.reg a)).toOption).getD s
    match (do
      isRobranchSuper s1 bstart
      s1.onTree bstart fun t => t.vfsRename dir (allocWhname name) name) with
    | .ok s2 => .ok s2
    | .error .EROFS => (makeLoop s1 d dir name (.reg a) true .EROFS bstart).map Prod.fst
    | .error e => .error e
  else (makeLoop s d dir name (.reg a) true .EROFS (bstart + 1)).map Prod.fst

/-- An operation on a dentry and the leftmost branch of it. -/
def withDentry {β : Type} (s : Stack α) (p : Path) (f : Dentry α → Nat → Except Errno β) :
    Except Errno β := do
  let d ← dentryOf s p
  match d.bstart with
  | none => .error Errno.EIO
  | some bstart => f d bstart

/-- `unionfs_create` -/
def unionfsCreate (s : Stack α) (dir : Path) (name : Text) (a : α) : Except Errno (Stack α) :=
  withDentry s (dir ++ [name]) fun d bstart => createFrom s d dir name a bstart

/-- What `unionfs_symlink`, `unionfs_mknod` and `unionfs_mkdir` share: a whiteout in the leftmost
branch of the entry is unlinked, and the entry is made there or in a branch to the left. -/
def unlinkWhiteoutAndMake (s : Stack α) (d : Dentry α) (dir : Path) (name : Text) (x : Inode α)
    (keepErr : Bool) (bstart : Nat) : Except Errno (Stack α × Nat) :=
  if (s.node bstart (dir ++ [allocWhname name])).isSome then
    match (do
      isRobranchSuper s bstart
      s.onTree bstart fun t => t.vfsUnlink dir (allocWhname name)) with
    | .ok s1 => makeLoop s1 d dir name x keepErr .EROFS (bstart + 1)
    | .error .EROFS => makeLoop s d dir name x keepErr .EROFS bstart
    | .error e => .error e
  else makeLoop s d dir name x keepErr .EROFS (bstart + 1)

/-- `unionfs_symlink` -/
def unionfsSymlink (s : Stack α) (dir : Path) (name : Text) (a : α) : Except Errno (Stack α) :=
  withDentry s (dir ++ [name]) fun d bstart =>
    (unlinkWhiteoutAndMake s d dir name (.other a) true bstart).map Prod.fst

/-- `unionfs_mknod` -/
def unionfsMknod (s : Stack α) (dir : Path) (name : Text) (a : α) : Except Errno (Stack α) :=
  withDentry s (dir ++ [name]) fun d bstart =>
    (unlinkWhiteoutAndMake s d dir name (.other a) false bstart).map Prod.fst

/-- `unionfs_mkdir`: the new directory hides those of the same name to the right. -/
def unionfsMkdir (s : Stack α) (dir : Path) (name : Text) (a mark : α) : Except Errno (Stack α) :=
  withDentry s (dir ++ [name]) fun d bstart =>
    (unlinkWhiteoutAndMake s d dir name (.dir a) false bstart).bind fun made =>
      makeDirOpaque made.1 (dir ++ [name]) mark made.2

/-! ## Deleting -/

/-- The dentry of an entry, with all branches that have it. -/
def withPartialLookup {β : Type} (s : Stack α) (dir : Path) (name : Text)
    (f : Dentry α → Nat → Except Errno β) : Except Errno β := do
  let parent ← dentryOf s dir
  let d ← unionfsLookupBackend s parent dir name
  let d ← unionfsPartialLookup s parent dir name d
  match d.bstart with
  | none => .error Errno.EIO
  | some bstart => f d bstart

/-- `unionfs_unlink`, which without `delete=all` is `unionfs_unlink_whiteout`. -/
def unionfsUnlink (s : Stack α) (dir : Path) (name : Text) (mark : α) : Except Errno (Stack α) :=
  withPartialLookup s dir name fun d bindex =>
    match (do
      isRobranchSuper s bindex
      s.onTree bindex fun t => t.vfsUnlink dir name) with
    | .error .EROFS =>
      if bindex = 0 then .error .EROFS else createWhiteout s d dir name mark (bindex - 1)
    | .error e => .error e
    | .ok s1 => createWhiteout s1 d dir name mark (d.bopaqueIndex.getD bindex)

/-- An entry of the table of names that a directory was read to have. -/
structure FilldirNode where
  name : Text
  bindex : Nat
  whiteout : Bool
deriving DecidableEq

/-- `readdir_util_callback`: names are found by their part after `.wh.`; one that is no whiteout
and was not seen as one means that the directory is not empty. -/
def readdirUtilCallback (bindex : Nat) (rdstate : List FilldirNode) (entry : Text) :
    Except Errno (List FilldirNode) :=
  let whiteout := decide (4 < entry.length) && whPrefix.isPrefixOf entry
  let name := if whiteout then entry.drop 4 else entry
  if rdstate.any fun node => node.name = name then .ok rdstate
  else if whiteout then .ok (rdstate ++ [⟨name, bindex, whiteout⟩])
  else .error .ENOTEMPTY

/-- What branch `i` lists in the directory `p`. -/
def Stack.list (s : Stack α) (i : Nat) (p : Path) : List Text :=
  match s[i]? with
  | some b => b.tree.list p
  | none => []

/-- The loop of `check_empty` over branches. -/
def checkEmptyLoop (s : Stack α) (d : Dentry α) (p : Path) :
    List Nat → List FilldirNode → Except Errno (List FilldirNode)
  | [], rdstate => .ok rdstate
  | bindex :: rest, rdstate =>
    match d.hidden bindex with
    | some (some (.dir _)) => do
      let rdstate ← (s.list bindex p).foldlM (readdirUtilCallback bindex) rdstate
      checkEmptyLoop s d p rest rdstate
    | _ => checkEmptyLoop s d p rest rdstate

/-- `check_empty`, after its partial lookup: the names of the whiteouts in an empty directory. -/
def checkEmpty (s : Stack α) (p : Path) (d : Dentry α) (bstart : Nat) :
    Except Errno (List FilldirNode) :=
  match d.bend with
  | none => .error Errno.EIO
  | some bend => checkEmptyLoop s d p (branches bstart (clipBend d.bopaqueIndex bend)) []

/-- `delete_whiteouts`: those that were found in this branch. -/
def deleteWhiteouts (s : Stack α) (p : Path) (bindex : Nat) (namelist : List FilldirNode) :
    Except Errno (Stack α) := do
  isRobranchSuper s bindex
  namelist.foldlM (fun s cursor =>
    if cursor.bindex ≠ bindex ∨ cursor.whiteout = false then .ok s
    else if (s.node bindex (p ++ [allocWhname cursor.name])).isSome then
      s.onTree bindex fun t => t.vfsUnlink p (allocWhname cursor.name)
    else .ok s) s

/-- `unionfs_rmdir_first`: the directory in its leftmost branch. -/
def unionfsRmdirFirst (s : Stack α) (dir : Path) (name : Text) (bstart : Nat)
    (namelist : List FilldirNode) : Except Errno (Stack α) := do
  let s ← deleteWhiteouts s (dir ++ [name]) bstart namelist
  isRobranch s bstart
  s.onTree bstart fun t => t.vfsRmdir dir name

/-- `unionfs_rmdir`, without `delete=all`. -/
def unionfsRmdir (s : Stack α) (dir : Path) (name : Text) (mark : α) : Except Errno (Stack α) :=
  withPartialLookup s dir name fun d bstart => do
    let namelist ← checkEmpty s (dir ++ [name]) d bstart
    match unionfsRmdirFirst s dir name bstart namelist with
    | .ok s1 => createWhiteout s1 d dir name mark bstart
    | .error .EROFS =>
      if bstart = 0 then .error .EROFS
      else
        match createWhiteout s d dir name mark (bstart - 1) with
        | .error .EEXIST => .error .EROFS
        | r => r
    | .error e => .error e

/-! ## Copying up -/

/-- `copyup_dentry`: the entry of branch `bstart` with its attributes and contents in another. -/
def copyupDentry (s : Stack α) (d : Dentry α) (dir : Path) (name : Text) (bstart newBindex : Nat) :
    Except Errno (Stack α) := do
  isRobranchSuper s newBindex
  let s1 ← createParents s dir newBindex
  match d.hidden bstart with
  | some (some i) => s1.onTree newBindex fun t => t.add dir name i
  | _ => .error .ENOENT

/-- The loops over the branches left of the given number that copy an entry up into the first one
that takes it. -/
def copyupLoop (s : Stack α) (d : Dentry α) (dir : Path) (name : Text) (bstart : Nat) :
    Errno → Nat → Except Errno (Stack α × Nat)
  | err, 0 => .error err
  | _, bindex + 1 =>
    match copyupDentry s d dir name bstart bindex with
    | .ok s1 => .ok (s1, bindex)
    | .error e => copyupLoop s d dir name bstart e bindex

/-- `unionfs_setattr`, for attributes other than the size: the entry of the leftmost branch is
changed, after it was copied up when that branch is read-only. -/
def unionfsSetattr (s : Stack α) (dir : Path) (name : Text) (i : Inode α) :
    Except Errno (Stack α) :=
  withDentry s (dir ++ [name]) fun d bstart => do
    let (s1, bindex) ←
      match isRobranch s bstart with
      | .ok () => .ok (s, bstart)
      | .error e =>
        if bstart = 0 then .ok (s, bstart) else copyupLoop s d dir name bstart e bstart
    s1.onTree bindex fun t => t.notifyChange (dir ++ [name]) i

/-- A write to a file that was opened for reading and writing: the delayed copy-up of
`unionfs_file_revalidate`, then the write of the lower file system. In the leftmost branch nothing is
copied, and the lower file was not opened for writing when that branch is read-only. -/
def unionfsWrite (s : Stack α) (dir : Path) (name : Text) (a : α) : Except Errno (Stack α) :=
  withDentry s (dir ++ [name]) fun d bstart => do
    let (s1, bindex) ←
      match isRobranch s bstart with
      | .ok () => .ok (s, bstart)
      | .error e =>
        if bstart = 0 then .error .EBADF else copyupLoop s d dir name bstart e bstart
    s1.onTree bindex fun t => t.notifyChange (dir ++ [name]) (.reg a)

end Kernel
