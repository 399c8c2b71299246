import Backpack.Boot.Insert

/-!
# The boot sequence of `init`

From the data directory to the union, with and without the `toram`/`copy2ram` parameter:
the modules are copied to a flat directory in RAM first, and `DATA` is set to it, or they
are taken from the medium. Copies, mounts and insertions succeed.
-/

namespace Backpack.Boot

open Shell UnionFs

/-- A live medium: the `.mo` files, what they hold by their path, and the tree `rootcopy/`,
whose own `.mo` files count as modules too. -/
structure Medium (α : Type) where
  root : Text
  files : List Module
  contents : Text → DirTree α
  rootcopy : DirTree α
  nodup : files.Nodup
  root_abs : root.head? = some '/'
  root_word : IsWord root
  dirs : ∀ m ∈ files, m.dir ∈ [none, some "base".toList, some "modules".toList,
    some "optional".toList, some "rootcopy".toList]
  no_slash : ∀ m ∈ files, '/' ∉ m.name
  rootcopy_mo : ∀ n, ⟨some "rootcopy".toList, n⟩ ∈ files ↔
    (rootcopy [n ++ ".mo".toList]).isSome = true

/-- `COPY2RAM` -/
def copy2ram : Text := "/union/mnt/memory/copy2ram".toList

/-- `IMAGES` -/
def imagesDir : Text := "/union/mnt/memory/images".toList

variable {α : Type}

/-- `cp "$MODULE" "$2"`: a file of the same name is overwritten. -/
def cpInto (ram : List (Text × DirTree α)) (name : Text) (t : DirTree α) : List (Text × DirTree α) :=
  (name, t) :: ram.filter fun x => x.1 ≠ name

/-- The module files in RAM after `copy_to_ram`, which also copies `boot/`. -/
def copyToRam (contents : Text → DirTree α) (modules : Text) : List (Text × DirTree α) :=
  (readValues modules).foldl (fun ram p => cpInto ram (lastComponent p) (contents p)) []

/-- The directory entry of a file `NAME.mo` in RAM. -/
def ramModule (fileName : Text) : Module := ⟨none, fileName.take (fileName.length - 3)⟩

def ramFiles (ram : List (Text × DirTree α)) : List Module := ram.map fun x => ramModule x.1

def ramContents (ram : List (Text × DirTree α)) (path : Text) : DirTree α :=
  (ram.lookup (lastComponent path)).getD emptyTree

/-- What the boot leads to: the read-only branches, index 1 first, and the root changes that
are copied over them. -/
structure Live (α : Type) where
  stack : List (DirTree α)
  changes : DirTree α

/-- `union_insert_modules $UNION $DATA $IMAGES` -/
def insertAll (contents : Text → DirTree α) (root : Text) (files : List Module)
    (cmdline order : Text) : List (DirTree α) :=
  (unionInsertModules ⟨fun p => some (contents p), fun _ => true⟩ imagesDir
    (listModules root files cmdline order) ⟨[], []⟩).branches.map Branch.tree

/-- `cp -a $DATA/rootcopy/* $UNION` -/
def copyRootchanges (rootcopy : DirTree α) : DirTree α
  | [] => none
  | name :: p => if pathMatch ['*'] name then rootcopy (name :: p) else none

/-- Booting from the medium. -/
def boot (m : Medium α) (cmdline order : Text) : Live α where
  stack := insertAll m.contents m.root m.files cmdline order
  changes := copyRootchanges m.rootcopy

/-- Booting with `toram` or `copy2ram`: in RAM there is no `rootcopy/`. -/
def bootToRam (m : Medium α) (cmdline order : Text) : Live α :=
  let ram := copyToRam m.contents (listModules m.root m.files cmdline order)
  { stack := insertAll (ramContents ram) copy2ram (ramFiles ram) cmdline order
    changes := copyRootchanges emptyTree }

/-! ## Media whose files are words -/

/-- The names of the modules and the lines of `/order.txt` reach the commands as they are. -/
structure Words (m : Medium α) (order : Text) : Prop where
  name : ∀ x ∈ m.files, IsWord x.name
  line : ∀ v ∈ readValues order, NoBlank v ∧ '/' ∉ v

/-- The medium as a data directory. -/
def Medium.dataDir (m : Medium α) (h : ∀ x ∈ m.files, IsWord x.name) : DataDir where
  root := m.root
  files := m.files
  nodup := m.nodup
  root_abs := m.root_abs
  root_word := m.root_word
  dir_word := by
    intro x hx e he
    have hdir := m.dirs x hx
    rw [Option.mem_def.mp he] at hdir
    simp only [List.mem_cons, Option.some.injEq, List.not_mem_nil, or_false, reduceCtorEq,
      false_or] at hdir
    rcases hdir with rfl | rfl | rfl | rfl <;> decide
  name_word := fun x hx => ⟨h x hx, m.no_slash x hx⟩

end Backpack.Boot
