import Backpack.Kernel.CheckEmpty
import Backpack.Kernel.CopyUp

/-!
# Requests to a file system

What the kernel checks before it calls an operation of a file system, for any file system, and
two of these: a union of branches, and a single tree of entries. The second says what the
first is for. Every request looks its path up anew.
-/

namespace Kernel

open Shell Overlay
open UnionFs (Path)

variable {α σ : Type}

/-- The operations of a file system with states `σ`. `look` gives the entry at the end of a path,
none for a negative dentry. -/
structure FileOps (σ α : Type) where
  look : σ → Path → Except Errno (Option (Inode α))
  create : σ → Path → Text → α → Except Errno σ
  symlink : σ → Path → Text → α → Except Errno σ
  mknod : σ → Path → Text → α → Except Errno σ
  mkdir : σ → Path → Text → α → Except Errno σ
  unlink : σ → Path → Text → Except Errno σ
  rmdir : σ → Path → Text → Except Errno σ
  setattr : σ → Path → Text → Inode α → Except Errno σ
  write : σ → Path → Text → α → Except Errno σ

/-- A request for the entry of a name in a directory. -/
inductive Op (α : Type) where
  | create (dir : Path) (name : Text) (a : α)
  | symlink (dir : Path) (name : Text) (a : α)
  | mknod (dir : Path) (name : Text) (a : α)
  | mkdir (dir : Path) (name : Text) (a : α)
  | unlink (dir : Path) (name : Text)
  | rmdir (dir : Path) (name : Text)
  | setattr (dir : Path) (name : Text) (a : α)
  | write (dir : Path) (name : Text) (a : α)

def Op.isRmdir : Op α → Bool
  | .rmdir _ _ => true
  | _ => false

/-- A name that must not be there yet. -/
def FileOps.absent (fs : FileOps σ α) (s : σ) (dir : Path) (name : Text) : Except Errno Unit :=
  if name = [] then .error .ENOENT
  else
    match fs.look s (dir ++ [name]) with
    | .error e => .error e
    | .ok none => .ok ()
    | .ok (some _) => .error .EEXIST

/-- The entry of a name that must be there. -/
def FileOps.present (fs : FileOps σ α) (s : σ) (dir : Path) (name : Text) :
    Except Errno (Inode α) :=
  if name = [] then .error .ENOENT
  else
    match fs.look s (dir ++ [name]) with
    | .error e => .error e
    | .ok none => .error .ENOENT
    | .ok (some i) => .ok i

/-- The inode with other attributes. -/
def withAttr (i : Inode α) (a : α) : Inode α :=
  match i with
  | .dir _ => .dir a
  | .reg _ => .reg a
  | .other _ => .other a

theorem isDir_withAttr (i : Inode α) (a : α) : (withAttr i a).isDir = i.isDir := by
  cases i <;> rfl

/-- One request. -/
def FileOps.step (fs : FileOps σ α) (s : σ) : Op α → Except Errno σ
  | .create dir name a => do
    fs.absent s dir name
    fs.create s dir name a
  | .symlink dir name a => do
    fs.absent s dir name
    fs.symlink s dir name a
  | .mknod dir name a => do
    fs.absent s dir name
    fs.mknod s dir name a
  | .mkdir dir name a => do
    fs.absent s dir name
    fs.mkdir s dir name a
  | .unlink dir name => do
    let i ← fs.present s dir name
    if i.isDir then .error .EISDIR else fs.unlink s dir name
  | .rmdir dir name => do
    let i ← fs.present s dir name
    if i.isDir then fs.rmdir s dir name else .error .ENOTDIR
  | .setattr dir name a => do
    let i ← fs.present s dir name
    fs.setattr s dir name (withAttr i a)
  | .write dir name a => do
    let i ← fs.present s dir name
    match i with
    | .dir _ => .error .EISDIR
    | .reg _ => fs.write s dir name a
    | .other _ => .error .EINVAL

/-- Requests one after the other, with what each returns; one that fails changes nothing. -/
def FileOps.run (fs : FileOps σ α) : σ → List (Op α) → List (Except Errno Unit) × σ
  | s, [] => ([], s)
  | s, op :: ops =>
    match fs.step s op with
    | .ok s' => (.ok () :: (fs.run s' ops).1, (fs.run s' ops).2)
    | .error e => (.error e :: (fs.run s ops).1, (fs.run s ops).2)

/-- The operations of unionfs. -/
def unionOps (mark : α) : FileOps (Stack α) α where
  look s p := (dentryOf s p).map Dentry.inode
  create := unionfsCreate
  symlink := unionfsSymlink
  mknod := unionfsMknod
  mkdir s dir name a := unionfsMkdir s dir name a mark
  unlink s dir name := unionfsUnlink s dir name mark
  rmdir s dir name := unionfsRmdir s dir name mark
  setattr := unionfsSetattr
  write := unionfsWrite

/-! ## A single tree -/

/-- The walk along a path in a tree. The names that unionfs keeps for itself are not to be had. -/
def walk (V : Flat Text α) : Path → Path → Except Errno (Option (Inode α))
  | dir, [] => .ok (V dir)
  | dir, n :: p =>
    match V dir with
    | some (.dir _) => if isValidname n then walk V (dir ++ [n]) p else .error .EPERM
    | some _ => .error .ENOTDIR
    | none => .error .ENOENT

open Classical in
/-- The operations on a tree of entries. -/
noncomputable def treeOps : FileOps (Flat Text α) α where
  look V p := walk V [] p
  create V dir name a := .ok (V.set (dir ++ [name]) (some (.reg a)))
  symlink V dir name a := .ok (V.set (dir ++ [name]) (some (.other a)))
  mknod V dir name a := .ok (V.set (dir ++ [name]) (some (.other a)))
  mkdir V dir name a := .ok (V.set (dir ++ [name]) (some (.dir a)))
  unlink V dir name := .ok (V.set (dir ++ [name]) none)
  rmdir V dir name :=
    if ∀ n, V (dir ++ [name] ++ [n]) = none then .ok (V.set (dir ++ [name]) none)
    else .error .ENOTEMPTY
  setattr V dir name i := .ok (V.alter (dir ++ [name]) i)
  write V dir name a := .ok (V.alter (dir ++ [name]) (.reg a))

/-! ## Walks -/

/-- A walk that goes on. -/
theorem walk_append (V : Flat Text α) (dir p q : Path) :
    walk V dir (p ++ q) = (walk V dir p).bind fun _ => walk V (dir ++ p) q := by
  induction p generalizing dir with
  | nil => simp [walk, Except.bind]
  | cons n p ih =>
    rw [List.cons_append, walk, walk]
    match V dir with
    | none => rfl
    | some (.reg a) => rfl
    | some (.other a) => rfl
    | some (.dir a) =>
      show (if isValidname n = true then walk V (dir ++ [n]) (p ++ q) else _) =
        Except.bind (if isValidname n = true then walk V (dir ++ [n]) p else _) _
      split_ifs
      · rw [ih, List.append_assoc]
        rfl
      · rfl

/-- A walk that ends has ended in the entry of the path. -/
theorem walk_eq {V : Flat Text α} {p : Path} {x : Option (Inode α)} (h : walk V [] p = .ok x) :
    x = V p := by
  induction p using List.reverseRecOn with
  | nil =>
    rw [walk, Except.ok.injEq] at h
    exact h.symm
  | append_singleton dir n ih =>
    rw [walk_append] at h
    cases hw : walk V [] dir with
    | error e => simp [hw, Except.bind] at h
    | ok y =>
      rw [hw, List.nil_append] at h
      simp only [Except.bind, walk] at h
      split at h
      · split_ifs at h
        rw [Except.ok.injEq] at h
        exact h.symm
      · simp at h
      · simp at h

/-- A walk to a name has passed its directory. -/
theorem walk_isDirAt {V : Flat Text α} {dir : Path} {n : Text} {x : Option (Inode α)}
    (h : walk V [] (dir ++ [n]) = .ok x) : V.IsDirAt dir ∧ isValidname n = true := by
  rw [walk_append] at h
  cases hw : walk V [] dir with
  | error e => simp [hw, Except.bind] at h
  | ok y =>
    rw [hw, List.nil_append] at h
    simp only [Except.bind, walk] at h
    split at h
    · rename_i a ha
      split_ifs at h with hn
      exact ⟨by simp [Flat.IsDirAt, ha, Inode.isDir], hn⟩
    · simp at h
    · simp at h

/-- A walk in a union is one in the tree that it shows: the lookups of unionfs find the entries
of the merged layers, and fail where a walk along these does. -/
theorem dentryOf_eq_walk {s : Stack α} (hs : s ≠ []) (hreg : WhiteoutsReg s) (p : Path) :
    (dentryOf s p).map Dentry.inode = walk (unionView s) [] p := by
  induction p using List.reverseRecOn with
  | nil =>
    cases s with
    | nil => exact absurd rfl hs
    | cons b s => rfl
  | append_singleton dir n ih =>
    rw [walk_append, ← ih, List.nil_append, walk]
    by_cases hv : (unionView s).IsDirAt dir
    · obtain ⟨d, b, e, hd, hdentry, hview, hlook⟩ := dentryOf_dir hs hreg hv
      obtain ⟨x, hx, hxd⟩ := Flat.isDirAt_iff.mp hv
      have hdir := valid_of_unionView hv.ne_none
      rw [hlook, hd]
      cases x with
      | reg a => simp [Inode.isDir] at hxd
      | other a => simp [Inode.isDir] at hxd
      | dir a =>
        simp only [Except.map, Except.bind, hx]
        cases hn : isValidname n with
        | true =>
          obtain ⟨d', hlook', hchild⟩ := dentryOf_child hreg hdentry hview hdir hn
          rw [hlook']
          have hinode : d'.inode = unionView s (dir ++ [n]) := by
            rcases hchild with ⟨b', e', _, _, hx, _⟩ | ⟨b', x, _, hd', _, hx, _⟩ | ⟨hneg, hx, _⟩
            · exact hx
            · rw [hx, hd']
              rfl
            · rw [hx]
              exact hneg.inode
          simp only [if_true, walk, hinode]
        | false =>
          rw [unionfsLookupBackend, hn]
          rfl
    · -- nothing is looked up in what is no directory
      rw [dentryOf, pathLookup_append, ← dentryOf]
      cases hdent : dentryOf s dir with
      | error e => rfl
      | ok d =>
        rw [hdent] at ih
        have hinode : d.inode = unionView s dir := walk_eq ih.symm
        show (pathLookup s ([] ++ dir) d [n]).map Dentry.inode = _
        rw [pathLookup, hinode]
        simp only [Except.map, Except.bind]
        cases hx : unionView s dir with
        | none => rfl
        | some x =>
          cases x with
          | reg a => rfl
          | other a => rfl
          | dir a => exact absurd (by simp [Flat.IsDirAt, hx, Inode.isDir]) hv

end Kernel
