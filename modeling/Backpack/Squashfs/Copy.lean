import Backpack.Squashfs.Unsquashfs

/-!
# Copies of a directory

What should come out of an image: the calls that copy the source directory, in its order, where a
file with several names is made once and linked then.
-/

namespace Squashfs

/-- The owner and the group that a file is to have. -/
def Options.owner (o : Options) (stat : Stat) : ℕ := o.globalUid.getD stat.uid

def Options.group (o : Options) (stat : Stat) : ℕ := o.globalGid.getD stat.gid

variable (o : Options)

/-- The calls that make the attributes of a file those of the source. The mode is not set again
where the file was created with it. -/
def copyAttributes (path : Bytes) (stat : Stat) (setMode : Bool) : List Call :=
  [.utime path (stat.mtime % 2 ^ 32)] ++
    (if setMode then [.chmod path (stat.mode % 2 ^ 12)] else []) ++
    [.chown path (o.owner stat) (o.group stat)]

/-- A device, whose numbers have 8 bits each. -/
def copyDevice (path : Bytes) (stat : Stat) (type major minor : ℕ) : List Call :=
  .mknod path type (major % 2 ^ 8) (minor % 2 ^ 8) :: copyAttributes o path stat true

/-- A file. -/
def copyFile (path : Bytes) (node : Node) : List Call :=
  match node.contents with
  | .reg content =>
    .create path (node.stat.mode % 2 ^ 12) content :: copyAttributes o path node.stat false
  | .symlink target =>
    [.symlink target path, .lchown path (o.owner node.stat) (o.group node.stat)]
  | .chrdev major minor => copyDevice o path node.stat chrdevType major minor
  | .blkdev major minor => copyDevice o path node.stat blkdevType major minor
  | .fifo => .mkfifo path :: copyAttributes o path node.stat true
  | .socket => []

/-- The name of a file below a directory. -/
def below (dir name : Bytes) : Bytes := dir ++ 47 :: name

/-- The first name that a file had, by its number. -/
abbrev Seen := List (ℕ × Bytes)

/-- A name of a file, which may have been made under another. -/
def copyName (nodes : List Node) (path : Bytes) (k : ℕ) (seen : Seen) : List Call × Seen :=
  match seen.lookup k with
  | some old => ([.link old path], seen)
  | none =>
    match nodes[k]? with
    | some node => (copyFile o path node, (k, path) :: seen)
    | none => ([], seen)

/-- A directory, with the calls for its entries. -/
def copyMade (path : Bytes) (stat : Stat) (entries : List Call) : List Call :=
  [.mkdir path (stat.mode % 2 ^ 12)] ++ entries ++ copyAttributes o path stat true

/-- The entries of a directory. -/
def copyEntries (nodes : List Node) (dir : Bytes) : Entries → Seen → List Call × Seen
  | .nil, seen => ([], seen)
  | .file name k rest, seen =>
    let r := copyName o nodes (below dir name) k seen
    let r' := copyEntries nodes dir rest r.2
    (r.1 ++ r'.1, r'.2)
  | .dir name stat _ sub rest, seen =>
    let r := copyEntries nodes (below dir name) sub seen
    let r' := copyEntries nodes dir rest r.2
    (copyMade o (below dir name) stat r.1 ++ r'.1, r'.2)

/-- The source directory. -/
def copyDir (sc : Scan) (dest : Bytes) : List Call :=
  copyMade o dest sc.stat (copyEntries o sc.nodes dest sc.entries []).1

/-! ## The size of a tree -/

/-- The number of directories on the longest way down. -/
def Entries.depth : Entries → ℕ
  | .nil => 0
  | .file _ _ rest => rest.depth
  | .dir _ _ _ sub rest => max (sub.depth + 1) rest.depth

/-- The length of the longest path. -/
def Entries.pathLength : Entries → ℕ
  | .nil => 0
  | .file name _ rest => max (name.length + 1) rest.pathLength
  | .dir name _ _ sub rest => max (name.length + 1 + sub.pathLength) rest.pathLength

end Squashfs
