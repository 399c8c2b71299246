import Backpack.Kernel.CheckEmpty

/-!
# Reading a directory of a union

`unionfs_readdir` goes through the directories of the branches, and keeps the names that it gave
to the reader and those of whiteouts, so that no name is given twice or from behind a whiteout.
A reader asks for a buffer of entries at a time, and the next call goes on where the last one ran
out of room. The lower file systems are taken to give entries to the callback until it fails.

`none` is a failed `BUG_ON`.
-/

namespace Kernel

open Shell Overlay
open UnionFs (Path whPrefix)

variable {α : Type}

/-- The buffer of a call of `getdents`: the bytes left, and the names that are in it. -/
structure Dirent where
  room : Nat
  entries : List Text

/-- `DIREOF` -/
def direof : Nat := 0xfffff

/-- `struct unionfs_dir_state`, with the names in the order in which they were added, and without
the cookie, which `alloc_rdstate` keeps below `MAXRDCOOKIE`. -/
structure RdState where
  bindex : Nat
  dirpos : Nat
  offset : Nat
  nodes : List FilldirNode

/-- `struct unionfs_getdents_callback` -/
structure GetdentsCallback where
  rdstate : RdState
  dirent : Dirent
  entriesWritten : Nat
  filldirError : Bool

/-- `verify_rdstate_offset` -/
def RdState.verifyRdstateOffset (uds : RdState) : Bool := decide (uds.offset < direof)

/-- `add_filldir_node` -/
def RdState.addFilldirNode (uds : RdState) (name : Text) (whiteout : Bool) : RdState :=
  { uds with nodes := uds.nodes ++ [⟨name, uds.bindex, whiteout⟩] }

section

variable (reclen : Text → Nat)

/-- The callback of the kernel: an entry takes `reclen` bytes of the buffer. -/
def filldir (buf : Dirent) (name : Text) : Option Dirent :=
  if reclen name ≤ buf.room then some ⟨buf.room - reclen name, buf.entries ++ [name]⟩ else none

/-- `unionfs_filldir`, but for `verify_rdstate_offset`: the offset only grows, so that it is checked
when the lower directory was read. -/
def unionfsFilldir (buf : GetdentsCallback) (entry : Text) : GetdentsCallback :=
  let isWhEntry := decide (4 < entry.length) && whPrefix.isPrefixOf entry
  let name := if isWhEntry then entry.drop 4 else entry
  if buf.rdstate.nodes.any fun node => node.name = name then buf
  else if isWhEntry then
    { buf with
      rdstate := buf.rdstate.addFilldirNode name true
      entriesWritten := buf.entriesWritten + 1 }
  else
    let rdstate := { buf.rdstate with offset := buf.rdstate.offset + 1 }
    match filldir reclen buf.dirent name with
    | none => { buf with rdstate := rdstate, filldirError := true }
    | some dirent =>
      { buf with
        rdstate := rdstate.addFilldirNode name false
        dirent := dirent
        entriesWritten := buf.entriesWritten + 1 }

/-- `vfs_readdir` of a lower directory: entries are given to the callback until it fails. Beside the
callback's data, how many it took. -/
def vfsReaddir : List Text → GetdentsCallback → GetdentsCallback × Nat
  | [], buf => (buf, 0)
  | entry :: rest, buf =>
    let buf1 := unionfsFilldir reclen buf entry
    if buf1.filldirError then (buf1, 0)
    else
      let (buf2, n) := vfsReaddir rest buf1
      (buf2, n + 1)

/-- The lower files of an open directory: what a directory lists from its start, or the error when
it is none. -/
abbrev HiddenFiles := Nat → Option (Except Errno (List Text))

/-- What a lower file lists. -/
def listing (files : HiddenFiles) (i : Nat) : List Text :=
  match files i with
  | some (.ok list) => list
  | _ => []

/-- Of an empty directory nothing is written. -/
theorem vfsReaddir_written {l : List Text} {buf : GetdentsCallback}
    (h : (vfsReaddir reclen l buf).1.entriesWritten ≠ buf.entriesWritten) : l ≠ [] := by
  intro hnil
  subst hnil
  exact h rfl

/-- Without an error all entries are taken. -/
theorem vfsReaddir_all {l : List Text} {buf : GetdentsCallback}
    (h : (vfsReaddir reclen l buf).1.filldirError = false) :
    (vfsReaddir reclen l buf).2 = l.length := by
  induction l generalizing buf with
  | nil => rfl
  | cons entry rest ih =>
    rw [vfsReaddir] at h ⊢
    by_cases hfull : (unionfsFilldir reclen buf entry).filldirError = true
    · simp [hfull] at h
    · simp only [hfull, Bool.false_eq_true, if_false] at h ⊢
      rw [ih h, List.length_cons]

/-- The loop of `unionfs_readdir`, with whether it ended because the buffer is full. -/
def readdirLoop (files : HiddenFiles) (bend : Nat) (uds : RdState) (dirent : Dirent) :
    Option (Except Errno (RdState × Dirent × Bool)) :=
  if uds.bindex ≤ bend then
    match _hfile : files uds.bindex with
    | none => readdirLoop files bend { uds with bindex := uds.bindex + 1, dirpos := 0 } dirent
    | some (.error e) => some (.error e)
    | some (.ok list) =>
      let r := vfsReaddir reclen (list.drop uds.dirpos) ⟨uds, dirent, 0, false⟩
      let uds1 := { r.1.rdstate with bindex := uds.bindex, dirpos := uds.dirpos + r.2 }
      if ¬ r.1.rdstate.verifyRdstateOffset then none
      else if _herror : r.1.filldirError then some (.ok (uds1, r.1.dirent, true))
      else if _hwritten : r.1.entriesWritten = 0 then
        readdirLoop files bend { uds1 with bindex := uds.bindex + 1, dirpos := 0 } r.1.dirent
      else readdirLoop files bend uds1 r.1.dirent
  else some (.ok (uds, dirent, false))
termination_by (bend + 1 - uds.bindex, (listing files uds.bindex).length - uds.dirpos)
decreasing_by
  · exact Prod.Lex.left _ _ (by omega)
  · exact Prod.Lex.left _ _ (by omega)
  · have hall := vfsReaddir_all reclen (Bool.not_eq_true _ ▸ _herror)
    have hpos := List.length_pos_iff.mpr (vfsReaddir_written reclen _hwritten)
    have hlist : listing files uds.bindex = list := by rw [listing, _hfile]
    rw [List.length_drop] at hall hpos
    apply Prod.Lex.right
    simp only [hlist, hall]
    omega

/-- The position in an open directory: where the last call left off, or at the end. -/
inductive DirFile where
  | start
  | within (rdstate : RdState)
  | dirEof

/-- `unionfs_readdir` with a buffer of `room` bytes. -/
def unionfsReaddir (files : HiddenFiles) (fbstart fbend : Nat) (file : DirFile) (room : Nat) :
    Option (Except Errno (DirFile × List Text)) :=
  let go (uds : RdState) : Option (Except Errno (DirFile × List Text)) := do
    match ← readdirLoop reclen files fbend uds ⟨room, []⟩ with
    | .error e => some (.error e)
    | .ok (uds, dirent, err) =>
      if err = false ∧ fbend ≤ uds.bindex then some (.ok (.dirEof, dirent.entries))
      else some (.ok (.within uds, dirent.entries))
  match file with
  | .dirEof => some (.ok (.dirEof, []))
  | .within uds => go uds
  | .start => go ⟨fbstart, 0, 1, []⟩

/-- The calls of a reader, each with the room in its buffer, and the names that each gave. -/
def getdents (files : HiddenFiles) (fbstart fbend : Nat) :
    DirFile → List Nat → Option (Except Errno (DirFile × List (List Text)))
  | file, [] => some (.ok (file, []))
  | file, room :: rooms => do
    match ← unionfsReaddir reclen files fbstart fbend file room with
    | .error e => some (.error e)
    | .ok (file, names) =>
      match ← getdents files fbstart fbend file rooms with
      | .error e => some (.error e)
      | .ok (file, rest) => some (.ok (file, names :: rest))

end

/-- The files that `unionfs_open` opens for a directory. -/
def hiddenFiles (s : Stack α) (p : Path) (d : Dentry α) : HiddenFiles := fun i =>
  match d.hidden i with
  | none => none
  | some (some (.dir _)) => some (.ok (s.list i p))
  | some _ => some (.error .ENOTDIR)

end Kernel
