import Backpack.Build.Order
import Backpack.Shell.Process
import Backpack.UnionFs

/-!
# The module loop

The part of `compile.sh` that builds the modules: for every line of `order.txt` the install
steps work through `union/`, what they leave in `temp/` is packed into `modules/NAME.mo`,
and the module is mounted below `temp/`. With `--fast` a module that exists is only
mounted. After the loop comes the ISO stage.
-/

namespace Backpack.Build

open Shell UnionFs

/-- `FILENAME` for a line of `order.txt`. -/
def moduleFile (line : Text) : Text := listName (loopList line) ++ ".mo".toList

/-- What the build does not decide itself. -/
structure Env (α : Type) where
  /-- `--fast` -/
  fast : Bool
  /-- what the install steps of a module list change, given `temp/` and the branches below; they
  leave alone the standard input of the loop, from which `read` takes the lines of `order.txt` -/
  install : Text → DirTree α → List (DirTree α) → List (Change α)
  /-- the run of `mksquashfs` in the `i`-th iteration writes its file -/
  packs : ℕ → Bool
  /-- `mount` and `unionctl` succeed in the `i`-th iteration -/
  mounts : ℕ → Bool
  /-- `vmlinuz` and its configuration are found after the loop -/
  kernel : Bool

/-- The files that the loop works on. -/
structure Disk (α : Type) where
  /-- `modules/NAME.mo` -/
  mo : Text → Option (DirTree α)
  temp : DirTree α
  /-- the read-only branches of `union/`, the one with index 1 first -/
  layers : List (Text × DirTree α)
  /-- the modules for which "Error creating" was printed -/
  failed : List Text
  /-- the ISO images have been made -/
  iso : Bool

structure Vars where
  /-- `EXIT` -/
  exitFlag : Bool
  /-- `GENERATED` -/
  generated : Bool

variable {α : Type}

/-- Mounts a module and inserts it after branch 0. -/
def mountModule (env : Env α) (i : ℕ) (name : Text) (t : DirTree α) (d : Disk α) : Disk α :=
  if env.mounts i then { d with layers := (name, t) :: d.layers } else d

/-- `temp/` when the install steps are done. -/
def installed (env : Env α) (line : Text) (d : Disk α) : DirTree α :=
  UnionMount.writeAll ⟨d.temp, d.layers.map Prod.snd⟩
    (env.install (loopList line) d.temp (d.layers.map Prod.snd))

/-- `rm -r temp/*`: the shell does not expand `*` to names with a leading dot. -/
def clearTemp (t : DirTree α) : DirTree α
  | [] => t []
  | name :: p => if pathMatch ['*'] name then none else t (name :: p)

/-- One iteration of the loop. -/
def iteration (env : Env α) : Text × ℕ → Cmd (Disk α) Vars := fun (line, i) p =>
  let name := moduleFile line
  match if env.fast then p.files.mo name else none with
  | some t =>
    { p with files := mountModule env i name t p.files, vars.generated := false }
  | none =>
    let p := { p with vars.generated := true }
    let t := installed env line p.files
    -- `rm modules/$FILENAME` comes first, so a failing `mksquashfs` leaves no file
    let d := { p.files with
      temp := t, mo := Function.update p.files.mo name (if env.packs i then some t else none) }
    if (d.mo name).isNone then
      exit { p with files := { d with failed := name :: d.failed } }
    else
      let d := mountModule env i name t d
      { p with files := { d with temp := clearTemp d.temp } }

/-- `cat modules/order.txt | while read i; do ...; done` -/
def moduleLoop (env : Env α) (order : Text) : Cmd (Disk α) Vars :=
  subshell (forEach (iteration env) (readValues order).zipIdx)

/-- The script when it comes to the loop: `union/` has just been mounted. -/
def atLoop (mo : Text → Option (DirTree α)) : Proc (Disk α) Vars where
  files := { mo := mo, temp := emptyTree, layers := [], failed := [], iso := false }
  vars := { exitFlag := false, generated := false }
  exited := false

/-- The lists that the iterations of the loop work on, one after the other. -/
def iterations (env : Env α) (order : Text) (mo : Text → Option (DirTree α)) : List Text :=
  (visited (iteration env) (readValues order).zipIdx (atLoop mo)).map fun x => loopList x.1

def makeIso : Cmd (Disk α) Vars := fun p => { p with files := { p.files with iso := true } }

/-- From the module loop to the end of the script, run as root. -/
def compile (env : Env α) (order : Text) : Cmd (Disk α) Vars :=
  seq (moduleLoop env order) <|
  seq (fun p => when p.vars.exitFlag exit p) <|
  seq (when (!env.kernel) exit) makeIso

end Backpack.Build
