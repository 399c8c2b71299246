import Backpack.Kernel.LowerFs

/-!
# Looking up names in a union

unionfs keeps for each entry of the union the entries of the branches that belong to it. Here
is how it finds them, a name at a time from the top of the mount, and what it finds: the
layers that `Overlay.found` picks, so that what the union shows is their `Overlay.view`.
-/

namespace Kernel

open Shell Overlay
open UnionFs (Path whPrefix)

variable {α : Type}

/-! ## Names -/

/-- `UNIONFS_DIR_OPAQUE_NAME` -/
def unionfsDirOpaqueName : Text := ['_', '_', 'd', 'i', 'r', '_', 'o', 'p', 'a', 'q', 'u', 'e']

/-- `UNIONFS_DIR_OPAQUE`: a directory that has this file hides what other branches have in it. -/
def unionfsDirOpaque : Text := whPrefix ++ unionfsDirOpaqueName

/-- `alloc_whname` -/
def allocWhname (name : Text) : Text := whPrefix ++ name

/-- `is_validname` -/
def isValidname (name : Text) : Bool :=
  !whPrefix.isPrefixOf name && !unionfsDirOpaqueName.isPrefixOf name

/-- The name of a whiteout is one unionfs keeps for itself. -/
theorem not_isValidname_allocWhname (n : Text) : isValidname (allocWhname n) = false := by
  simp [isValidname, allocWhname]

/-- No valid name is that of a whiteout. -/
theorem allocWhname_ne_of_isValidname {m n : Text} (h : isValidname m = true) :
    allocWhname n ≠ m := by
  intro heq
  rw [← heq, not_isValidname_allocWhname] at h
  simp at h

/-- Each name has its own whiteout. -/
theorem allocWhname_injective {m n : Text} (h : allocWhname m = allocWhname n) : m = n :=
  List.append_cancel_left h

/-! ## Entries of the union -/

/-- What unionfs knows of an entry: its own inode, and for each branch from `bstart` to `bend`
the entry there, none where there is no hidden dentry, `some none` for a negative one. -/
structure Dentry (α : Type) where
  inode : Option (Inode α)
  bstart : Option Nat
  bend : Option Nat
  bopaqueIndex : Option Nat
  hidden : Nat → Option (Option (Inode α))

/-- The top of the mount. -/
def rootDentry (s : Stack α) : Dentry α where
  inode := s.node 0 []
  bstart := some 0
  bend := some (s.length - 1)
  bopaqueIndex := none
  hidden i := s[i]?.map fun b => b.tree.node []

/-- `INTERPOSE_LOOKUP` and `INTERPOSE_PARTIAL` -/
inductive LookupMode where
  | interposeLookup
  | interposePartial
deriving DecidableEq

/-- The variables of the loop of `unionfs_lookup_backend`. -/
structure LookupState (α : Type) where
  dentry : Dentry α
  dentryCount : Nat
  firstDentryOffset : Option Nat

/-- The branches from `bstart` to `bend`. -/
def branches (bstart bend : Nat) : List Nat := List.range' bstart (bend + 1 - bstart)

/-- The end of a directory's branches: an opaque one to the left of the last ends them. -/
def clipBend (bopaqueIndex : Option Nat) (bend : Nat) : Nat :=
  match bopaqueIndex with
  | some bopaqueIndex => if bopaqueIndex < bend then bopaqueIndex else bend
  | none => bend

/-- `is_opaque_dir` -/
def isOpaqueDir (s : Stack α) (p : Path) (bindex : Nat) : Bool :=
  (s.node bindex (p ++ [unionfsDirOpaque])).isSome

/-- How the body of the loop of `unionfs_lookup_backend` ends: at its end or by `continue`, or by
leaving the loop, in which branch when that is by `break`. -/
inductive After where
  | next
  | leave (bindex : Option Nat)

/-- The loop body of `unionfs_lookup_backend`, for `name` in the directory `dir`. -/
def lookupBranch (s : Stack α) (mode : LookupMode) (parent : Dentry α) (dir : Path) (name : Text)
    (bindex : Nat) (st : LookupState α) : Except Errno (LookupState α × After) :=
  if mode = .interposePartial ∧ (st.dentry.hidden bindex).isSome then .ok (st, .next)
  else
    match parent.hidden bindex with
    | some (some (.dir _)) =>
      match s.node bindex (dir ++ [allocWhname name]) with
      | some wh =>
        -- a whiteout is found: give up
        if wh.isReg then
          .ok
            ({ st with
                dentry := { st.dentry with bend := some bindex, bopaqueIndex := some bindex } },
              .leave (some bindex))
        else .error Errno.EIO
      | none =>
        match s.node bindex (dir ++ [name]) with
        | none =>
          -- the first negative dentry is needed for creates
          if st.firstDentryOffset = none ∧ st.dentry.bstart = none then
            .ok ({ st with firstDentryOffset := some bindex }, .next)
          else .ok (st, .next)
        | some i =>
          let dentry : Dentry α :=
            { st.dentry with
              bstart := st.dentry.bstart.or (some bindex)
              hidden := fun j => if j = bindex then some (some i) else st.dentry.hidden j
              bend := some bindex }
          let st := { st with dentry := dentry, dentryCount := st.dentryCount + 1 }
          if i.isDir = false then
            -- lookups of files end here; a file below a directory is passed over
            if mode = .interposePartial then .ok (st, .next)
            else if st.dentryCount = 1 then .ok (st, .leave none)
            else .ok (st, .next)
          else if isOpaqueDir s (dir ++ [name]) bindex then
            .ok ({ st with dentry := { dentry with bopaqueIndex := some bindex } },
              .leave (some bindex))
          else .ok (st, .next)
    | _ => .ok (st, .next)

/-- The loop of `unionfs_lookup_backend`, with the branch in which it was left by `break`. -/
def lookupLoop (s : Stack α) (mode : LookupMode) (parent : Dentry α) (dir : Path) (name : Text) :
    List Nat → LookupState α → Except Errno (LookupState α × Option Nat)
  | [], st => .ok (st, none)
  | bindex :: rest, st => do
    let (st, after) ← lookupBranch s mode parent dir name bindex st
    match after with
    | .next => lookupLoop s mode parent dir name rest st
    | .leave stop => .ok (st, stop)

/-- `unionfs_lookup_backend` for a new dentry of `name` in the directory `dir`. -/
def unionfsLookupBackend (s : Stack α) (parent : Dentry α) (dir : Path) (name : Text) :
    Except Errno (Dentry α) :=
  if isValidname name = false then .error .EPERM
  else
    match parent.bstart, parent.bend with
    | some bstart, some bend => do
      let (st, stop) ← lookupLoop s .interposeLookup parent dir name (branches bstart bend)
        ⟨⟨none, none, none, none, fun _ => none⟩, 0, none⟩
      if st.dentryCount = 0 then
        -- only negative dentries: the leftmost, or the one beside the whiteout
        let offset := (st.firstDentryOffset.or stop).getD (bend + 1)
        .ok { st.dentry with
          bstart := some offset
          bend := some offset
          hidden := fun j => if j = offset then some (s.node offset (dir ++ [name])) else none }
      else .ok { st.dentry with inode := st.dentry.bstart.bind fun b => (st.dentry.hidden b).join }
    | _, _ => .error Errno.EIO

/-- `unionfs_partial_lookup` of a positive dentry: the branches right of the leftmost one that the
first lookup did not get to. -/
def unionfsPartialLookup (s : Stack α) (parent : Dentry α) (dir : Path) (name : Text)
    (d : Dentry α) : Except Errno (Dentry α) :=
  if isValidname name = false then .error .EPERM
  else
    match parent.bstart, parent.bend with
    | some bstart, some bend => do
      let (st, _) ← lookupLoop s .interposePartial parent dir name
        (branches (bstart + 1) (clipBend parent.bopaqueIndex bend)) ⟨d, 0, none⟩
      .ok st.dentry
    | _, _ => .error Errno.EIO

/-- The kernel's walk along a path; only directories are looked into. -/
def pathLookup (s : Stack α) : Path → Dentry α → Path → Except Errno (Dentry α)
  | _, d, [] => .ok d
  | dir, d, name :: p =>
    match d.inode with
    | some (.dir _) => do
      let c ← unionfsLookupBackend s d dir name
      pathLookup s (dir ++ [name]) c p
    | some _ => .error .ENOTDIR
    | none => .error .ENOENT

/-- The dentry of a path, which is looked up anew from the root: what dentries remember that are
kept while a directory is held open is left out. -/
def dentryOf (s : Stack α) (p : Path) : Except Errno (Dentry α) := pathLookup s [] (rootDentry s) p

/-- What the union shows at a path. -/
def inodeOf (s : Stack α) (p : Path) : Option (Inode α) :=
  match dentryOf s p with
  | .ok d => d.inode
  | .error _ => none

/-! ## Branches as layers -/

/-- A branch as a layer: its entries with valid names, its whiteouts and its opaque
directories. -/
def layerOf (N : Flat Text α) : Layer Text α where
  entry p := if p.all isValidname then N p else none
  whiteout p :=
    match p.getLast? with
    | none => false
    | some n => p.all isValidname && (N (p.dropLast ++ [allocWhname n])).isSome
  closedOff p := p.all isValidname && (N (p ++ [unionfsDirOpaque])).isSome

def Tree.layer (t : Tree α) : Layer Text α := layerOf t.node

/-- At a valid path the layer has what the branch has. -/
theorem layerOf_entry {N : Flat Text α} {p : Path} (h : p.all isValidname = true) :
    (layerOf N).entry p = N p := by
  simp only [layerOf, h, if_true]

/-- A whiteout of the layer is a whiteout file of the branch. -/
theorem layerOf_whiteout {N : Flat Text α} {p : Path} {n : Text}
    (h : (p ++ [n]).all isValidname = true) :
    (layerOf N).whiteout (p ++ [n]) = (N (p ++ [allocWhname n])).isSome := by
  simp only [layerOf, List.getLast?_append, List.getLast?_singleton, Option.some_or,
    List.dropLast_concat, h, Bool.true_and]

/-- At other paths the layer has nothing. -/
theorem layerOf_invalid {N : Flat Text α} {p : Path} (h : ¬ p.all isValidname = true) :
    (layerOf N).entry p = none ∧ (layerOf N).whiteout p = false ∧
      (layerOf N).closedOff p = false := by
  refine ⟨if_neg h, ?_, ?_⟩
  · simp only [layerOf, h]
    split <;> rfl
  · simp only [layerOf, h]
    rfl

/-- A directory is closed off where the branch has the mark. -/
theorem layerOf_closedOff {N : Flat Text α} {p : Path} (h : p.all isValidname = true) :
    (layerOf N).closedOff p = (N (p ++ [unionfsDirOpaque])).isSome := by
  simp only [layerOf, h, Bool.true_and]

/-- The layer of a closed branch is closed. -/
theorem layerOf_closed {N : Flat Text α} (hN : N.Closed) : (layerOf N).Closed := by
  have key : ∀ p n, p.all isValidname = true → N (p ++ [n]) ≠ none →
      (layerOf N).entry.IsDirAt p := by
    intro p n hp hn
    rw [Flat.IsDirAt, layerOf_entry hp]
    exact hN p n hn
  refine ⟨fun p n h => ?_, fun p n h => ?_, fun p h => ?_⟩
  · by_cases hvalid : (p ++ [n]).all isValidname = true
    · rw [layerOf_entry hvalid] at h
      rw [List.all_append, Bool.and_eq_true] at hvalid
      exact key p n hvalid.1 h
    · exact absurd (if_neg hvalid) h
  · simp only [layerOf, List.getLast?_append, List.getLast?_singleton, Option.some_or,
      List.dropLast_concat, List.all_append, Bool.and_eq_true] at h
    exact key p _ h.1.1 (Option.isSome_iff_ne_none.mp h.2)
  · simp only [layerOf, Bool.and_eq_true] at h
    exact key p _ h.1 (Option.isSome_iff_ne_none.mp h.2)

theorem Tree.layer_root (t : Tree α) : t.layer.entry.IsDirAt [] := t.root

theorem Tree.layer_closed (t : Tree α) : t.layer.Closed := layerOf_closed t.closed

/-- The layers of a stack. -/
def layers (s : Stack α) : List (Layer Text α) := s.map fun b => b.tree.layer

/-- Branch `i` as a layer. -/
def Stack.layer (s : Stack α) (i : Nat) : Layer Text α :=
  (s[i]?.map fun b => b.tree.layer).getD Layer.void

/-- A layer of the stack has what its branch has. -/
theorem Stack.layer_entry (s : Stack α) (i : Nat) {p : Path} (h : p.all isValidname = true) :
    (s.layer i).entry p = s.node i p := by
  unfold Stack.layer Stack.node
  cases s[i]? with
  | none => rfl
  | some b => exact layerOf_entry h

theorem Stack.layer_whiteout (s : Stack α) (i : Nat) {p : Path} {n : Text}
    (h : (p ++ [n]).all isValidname = true) :
    (s.layer i).whiteout (p ++ [n]) = (s.node i (p ++ [allocWhname n])).isSome := by
  unfold Stack.layer Stack.node
  cases s[i]? with
  | none => rfl
  | some b => exact layerOf_whiteout h

/-- A layer is closed off where `is_opaque_dir` says so. -/
theorem Stack.layer_closedOff (s : Stack α) (i : Nat) {p : Path} (h : p.all isValidname = true) :
    (s.layer i).closedOff p = isOpaqueDir s p i := by
  unfold Stack.layer isOpaqueDir Stack.node
  cases s[i]? with
  | none => rfl
  | some b => exact layerOf_closedOff h

theorem layers_eq_map (s : Stack α) : layers s = (List.range s.length).map s.layer := by
  apply List.ext_getElem
  · simp [layers]
  · intro i hi hi'
    have hlt : i < s.length := by simpa [layers] using hi
    simp [layers, Stack.layer, hlt]

end Kernel
