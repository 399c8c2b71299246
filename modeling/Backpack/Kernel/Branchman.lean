import Backpack.Kernel.LowerFs

/-!
# Adding and removing branches

A mounted union counts the open files of each branch, since a branch with open files must not
go. Files know their branches by number, as the numbers were when they were opened: each change of
the branches begins a new generation, and a `putmap` for each older one says which number a branch
has by now. A map goes away with the last file of its generation.

`none` is a kernel that stopped or is about to: a failed `BUG_ON`, an access to what is not there,
a write beyond what was allocated, or a lock given back that was not taken. What is beyond the end
of an array is whatever memory holds.
-/

namespace Kernel

open Shell

/-! ## Branches -/

/-- The directory of a branch: its file system, and the names from there up to the root of that. -/
structure HiddenRoot where
  fs : Nat
  up : List Text
deriving DecidableEq

/-- A loop of `is_branch_overlap`: `dent2` is met on the way up. -/
def climbsTo (dent2 : HiddenRoot) (fs : Nat) : List Text → Bool
  | [] => decide (⟨fs, []⟩ = dent2)
  | n :: up => decide (⟨fs, n :: up⟩ = dent2) || climbsTo dent2 fs up

/-- `is_branch_overlap` -/
def isBranchOverlap (dent1 dent2 : HiddenRoot) : Bool :=
  climbsTo dent2 dent1.fs dent1.up || climbsTo dent1 dent2.fs dent2.up

/-- `MAY_READ | MAY_WRITE | MAY_NFSRO` -/
def mayAll : BitVec 32 := 4 ||| 2 ||| 16

/-- `MAY_READ` -/
def mayRead : BitVec 32 := 4

/-- `struct unionfs_usi_data`, with the directory of the branch. -/
structure UsiData where
  root : HiddenRoot
  sbcount : Int
  branchperms : BitVec 32

/-- `struct putmap` -/
structure Putmap where
  count : Int
  bend : Nat
  map : List Nat

/-- `struct unionfs_sb_info` -/
structure SbInfo where
  usiData : List UsiData
  generation : Nat
  firstputmap : Nat
  lastputmap : Nat
  putmaps : List (Option Putmap)

/-- `atomic_add` to the count of a branch. -/
def SbInfo.addCount (sb : SbInfo) (index : Nat) (n : Int) : SbInfo :=
  { sb with usiData := sb.usiData.modify index fun d => { d with sbcount := d.sbcount + n } }

/-- What a putmap counts; none counts nothing. -/
def putmapCount : Option Putmap → Int
  | none => 0
  | some putmap => putmap.count

/-! ## Generations -/

/-- The maps from the first one that is still there, which `newputmap` takes over. -/
def SbInfo.newlist (sb : SbInfo) : List (Option Putmap) :=
  if sb.firstputmap = 0 then [] else sb.putmaps.dropWhile Option.isNone

/-- What `newputmap` writes: a map for the generation that ends, whose files are those that no other
map counts. Maps that went away at the front of the list are dropped. -/
def SbInfo.withNewmap (sb : SbInfo) : SbInfo :=
  let newlist := sb.newlist
  let first := if sb.firstputmap = 0 then 1
    else sb.firstputmap + (sb.putmaps.length - newlist.length)
  let last := if sb.firstputmap = 0 then 1 else sb.lastputmap + 1
  let count := (sb.usiData.map UsiData.sbcount).sum -
    ((List.range (last - first)).map fun k => putmapCount (newlist[k]?.join)).sum
  let newmap : Putmap := ⟨count, sb.usiData.length - 1, List.range sb.usiData.length⟩
  { sb with
    firstputmap := first
    lastputmap := last
    putmaps := newlist ++ [some newmap] }

/-- The new map has no room: all maps but the first are put behind a `newlist` that was allocated
without them, and `kmalloc` gave no more entries than it was asked for. -/
def SbInfo.Full (kmalloc : Nat → Nat) (sb : SbInfo) : Prop :=
  sb.firstputmap ≠ 0 ∧ kmalloc sb.newlist.length ≤ sb.newlist.length

instance (kmalloc : Nat → Nat) (sb : SbInfo) : Decidable (sb.Full kmalloc) :=
  inferInstanceAs (Decidable (_ ∧ _))

/-- `newputmap`, where `kmalloc n` is the number of pointers for which there is room in the object
of the allocator that a request for `n` of them gets. -/
def newputmap (kmalloc : Nat → Nat) (sb : SbInfo) : Option SbInfo :=
  if sb.Full kmalloc then none else some sb.withNewmap

/-- A change of the newest map. -/
def SbInfo.onNewest (sb : SbInfo) (f : Putmap → Option Putmap) : SbInfo :=
  { sb with putmaps := sb.putmaps.modify (sb.lastputmap - sb.firstputmap) fun p => p.bind f }

/-- `fixputmaps`: the older maps go on through the newest one. -/
def fixputmaps (beyond : Nat → Nat) (sb : SbInfo) : SbInfo :=
  match sb.putmaps[sb.lastputmap - sb.firstputmap]?.join with
  | none => sb
  | some cur =>
    { sb with putmaps := sb.putmaps.mapIdx fun gen p =>
        if gen < sb.lastputmap - sb.firstputmap then
          p.map fun m => { m with map := m.map.map fun i => (cur.map[i]?).getD (beyond i) }
        else p }

/-- `branchput_gen`: a file of this generation leaves the branch that had this number. -/
def branchputGen (generation : Nat) (sb : SbInfo) (index : Nat) : Option SbInfo :=
  if generation = sb.generation then
    if index < sb.usiData.length then some (sb.addCount index (-1)) else none
  else if generation < sb.firstputmap ∨ sb.lastputmap < generation then none
  else
    match sb.putmaps[generation - sb.firstputmap]?.join with
    | none => none
    | some putmap =>
      if putmap.bend < index then none
      else
        match putmap.map[index]? with
        | none => none
        | some i =>
          if i < sb.usiData.length then
            let sb := sb.addCount i (-1)
            -- the last file of a generation takes the map with it
            let putmap' :=
              if putmap.count - 1 = 0 then none else some { putmap with count := putmap.count - 1 }
            some { sb with putmaps := sb.putmaps.set (generation - sb.firstputmap) putmap' }
          else none

/-! ## Changes of the branches -/

/-- The number of a branch after one was inserted at `branch`. -/
def shiftUp (branch i : Nat) : Nat := if branch ≤ i then i + 1 else i

/-- The number of a branch after the one at `branch` was taken out, whose own stays. -/
def shiftDown (branch i : Nat) : Nat := if branch < i then i - 1 else i

/-- `unionfs_ioctl_addbranch`, with what `path_lookup` and `check_branch` say of the directory. Up
to there the locks are not taken, but `out` gives them back. -/
def unionfsIoctlAddbranch (kmalloc beyond : Nat → Nat) (sb : SbInfo)
    (path : Except Errno HiddenRoot) (branch : Nat) (perms : BitVec 32) :
    Option (SbInfo × Except Errno Unit) :=
  if perms &&& ~~~mayAll ≠ 0 then none
  else if perms &&& mayRead = 0 then none
  -- `FD_SETSIZE`
  else if 1024 < sb.usiData.length - 1 then none
  else
    match path with
    | .error _ => none
    | .ok root =>
      if sb.usiData.any fun d => isBranchOverlap d.root root then some (sb, .error .EINVAL)
      else if sb.usiData.length < branch then some (sb, .error .EINVAL)
      else do
        let sb ← newputmap kmalloc sb
        let sb := { sb with
          generation := sb.generation + 1
          usiData := sb.usiData.insertIdx branch ⟨root, 0, perms⟩ }
        let sb := sb.onNewest fun m => some { m with map := m.map.map (shiftUp branch) }
        some (fixputmaps beyond sb, .ok ())

/-- `unionfs_ioctl_delbranch` -/
def unionfsIoctlDelbranch (kmalloc beyond : Nat → Nat) (sb : SbInfo) (branch : Nat) :
    Option (SbInfo × Except Errno Unit) :=
  if sb.usiData.length = 1 then some (sb, .error .EBUSY)
  else
    match sb.usiData[branch]? with
    | none => some (sb, .error .EINVAL)
    | some d =>
      if d.sbcount ≠ 0 then some (sb, .error .EBUSY)
      else do
        let sb ← newputmap kmalloc sb
        let sb := { sb with
          generation := sb.generation + 1
          usiData := sb.usiData.eraseIdx branch }
        let sb := sb.onNewest fun m => some { m with map := m.map.map (shiftDown branch) }
        let sb := fixputmaps beyond sb
        -- no file may be open to take the map away
        some (sb.onNewest fun m => if m.count = 0 then none else some m, .ok ())

/-- `unionfs_ioctl_incgen` -/
def unionfsIoctlIncgen (kmalloc : Nat → Nat) (sb : SbInfo) : Option SbInfo := do
  let sb ← newputmap kmalloc sb
  some { sb with generation := sb.generation + 1 }

/-- `unionfs_ioctl_rdwrbranch`: its arguments are looked at after the new map was made, and the
number after the last one passes, with a write beyond the branches. -/
def unionfsIoctlRdwrbranch (kmalloc : Nat → Nat) (sb : SbInfo) (branch : Nat)
    (perms : BitVec 32) : Option (SbInfo × Except Errno Unit) := do
  let sb ← newputmap kmalloc sb
  if sb.usiData.length < branch then some (sb, .error .EINVAL)
  else if perms &&& ~~~mayAll ≠ 0 then some (sb, .error .EINVAL)
  else if perms &&& mayRead = 0 then some (sb, .error .EINVAL)
  else if branch = sb.usiData.length then none
  else
    some ({ sb with
      usiData := sb.usiData.modify branch fun d => { d with branchperms := perms }
      generation := sb.generation + 1 }, .ok ())

/-! ## Open files -/

/-- An open file of the union: its generation, and for each lower file that it has the number of
its branch and the branch itself. -/
structure UnionFile where
  generation : Nat
  hidden : List (Nat × HiddenRoot)

/-- `unionfs_open`, with the numbers of the branches in which the dentry is. -/
def unionfsOpen (sb : SbInfo) (dentries : List Nat) : SbInfo × UnionFile :=
  let hidden := dentries.filterMap fun i => sb.usiData[i]?.map fun d => (i, d.root)
  (hidden.foldl (fun sb h => sb.addCount h.1 1) sb, ⟨sb.generation, hidden⟩)

/-- `unionfs_file_release` -/
def unionfsFileRelease (sb : SbInfo) (file : UnionFile) : Option SbInfo :=
  file.hidden.foldlM (fun sb h => branchputGen file.generation sb h.1) sb

/-- The union with the files that are open in it. -/
structure Mount where
  sb : SbInfo
  files : List UnionFile

/-- What can happen to a mounted union, with files by their place in the list. -/
inductive Event where
  | openFile (dentries : List Nat)
  | release (file : Nat)
  -- `unionfs_file_revalidate` opens the lower files of a file of an older generation again
  | revalidate (file : Nat) (dentries : List Nat)
  | addbranch (path : Except Errno HiddenRoot) (branch : Nat) (perms : BitVec 32)
  | delbranch (branch : Nat)
  | incgen
  | rdwrbranch (branch : Nat) (perms : BitVec 32)

/-- One event. -/
def Mount.step (kmalloc beyond : Nat → Nat) (m : Mount) : Event → Option Mount
  | .openFile dentries =>
    let r := unionfsOpen m.sb dentries
    some ⟨r.1, r.2 :: m.files⟩
  | .release k =>
    match m.files[k]? with
    | none => some m
    | some file => do
      let sb ← unionfsFileRelease m.sb file
      some ⟨sb, m.files.eraseIdx k⟩
  | .revalidate k dentries =>
    match m.files[k]? with
    | none => some m
    | some file => do
      let sb ← unionfsFileRelease m.sb file
      let r := unionfsOpen sb dentries
      some ⟨r.1, r.2 :: m.files.eraseIdx k⟩
  | .addbranch path branch perms => do
    let r ← unionfsIoctlAddbranch kmalloc beyond m.sb path branch perms
    some { m with sb := r.1 }
  | .delbranch branch => do
    let r ← unionfsIoctlDelbranch kmalloc beyond m.sb branch
    some { m with sb := r.1 }
  | .incgen => do
    let sb ← unionfsIoctlIncgen kmalloc m.sb
    some { m with sb := sb }
  | .rdwrbranch branch perms => do
    let r ← unionfsIoctlRdwrbranch kmalloc m.sb branch perms
    some { m with sb := r.1 }

/-- A mode that a branch can have. -/
def ValidPerms (perms : BitVec 32) : Prop := perms &&& ~~~mayAll = 0 ∧ perms &&& mayRead ≠ 0

/-- A request that is refused in a way that leaves locks or generations wrong: a new branch before
the locks are taken, a new mode after the new map was made. -/
def Event.Refused (m : Mount) : Event → Prop
  | .addbranch path _ perms =>
    ¬ ValidPerms perms ∨ 1024 < m.sb.usiData.length - 1 ∨ ∀ root, path ≠ .ok root
  | .rdwrbranch branch perms => ¬ ValidPerms perms ∨ m.sb.usiData.length ≤ branch
  | _ => False

/-- A change of the branches for which the list of maps has no room. -/
def Event.Overruns (kmalloc : Nat → Nat) (m : Mount) : Event → Prop
  | .openFile _ | .release _ | .revalidate _ _ => False
  | _ => m.sb.Full kmalloc

/-- The union as it was mounted. -/
structure Mounted (m : Mount) : Prop where
  generation : m.sb.generation = 1
  firstputmap : m.sb.firstputmap = 0
  lastputmap : m.sb.lastputmap = 0
  putmaps : m.sb.putmaps = []
  files : m.files = []
  branches : m.sb.usiData ≠ []
  counts : ∀ d ∈ m.sb.usiData, d.sbcount = 0
  overlap : m.sb.usiData.Pairwise fun d e => isBranchOverlap d.root e.root = false

/-- The states of a mounted union in which no request was refused in that way, and the kernel did
not stop. -/
inductive Mount.Reachable (kmalloc beyond : Nat → Nat) : Mount → Prop
  | mounted {m : Mount} (h : Mounted m) : Mount.Reachable kmalloc beyond m
  | step {m m' : Mount} (h : Mount.Reachable kmalloc beyond m) (ev : Event)
      (hev : ¬ ev.Refused m) (hs : m.step kmalloc beyond ev = some m') :
      Mount.Reachable kmalloc beyond m'

end Kernel
