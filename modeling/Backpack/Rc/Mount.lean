import Backpack.Shell.Commands

/-!
# Mounting the hard disks

The loop of `rc.mount` over the partitions that `fdisk -l` lists, which adds a line to
`/etc/fstab` for each one that is not in it.
-/

namespace Backpack.Rc

open Shell

/-- The names that an unquoted `*` becomes in the directory where the script runs. -/
structure WorkDir where
  names : List Text
  no_newline : ∀ n ∈ names, '\n' ∉ n

/-- The words of `$LINE`. A bootable partition has a `*` behind its device, which the shell takes
for a pattern. -/
def lineWords (cwd : WorkDir) (line : Text) : List Text :=
  (words line).flatMap fun w => if w = ['*'] ∧ cwd.names ≠ [] then cwd.names else [w]

/-- `cut '-d ' -f 1` for each line, as a command substitution delivers it -/
def cutFirst (t : Text) : Text :=
  ['\n'].intercalate ((fileLines t).map fun l => l.takeWhile (· != ' '))

/-- The file system for the two characters `${LINE:52:2}`, empty for a partition that is ignored. -/
def fileSystem (id : Text) : Text :=
  if id ∈ ["5 ".toList, "F ".toList] then []
  else if id ∈ ["4 ".toList, "6 ".toList, "E ".toList, "14".toList, "16".toList, "1E".toList,
      "C4".toList, "C6".toList] then "fat".toList
  else if id ∈ ["B ".toList, "C ".toList, "1B".toList, "1C".toList] then "vfat".toList
  else if id = "82".toList then []
  else "auto".toList

/-- What is appended to `/etc/fstab`. -/
def fstabLine (device fileSystem ntfsopts : Text) : Text :=
  device ++ '\t' :: ("/mnt/".toList ++ basename [device]) ++ '\t' :: fileSystem ++
    "\tdefaults,auto,exec,users,ro".toList ++ ntfsopts ++ " 0 0".toList

/-- The value of `NTFSOPTS` for NTFS partitions. -/
def umaskOption : Text := ",umask=222".toList

/-- `/etc/fstab`, `/etc/mtab`, the variable `NTFSOPTS`, and the devices for which the desktop gets
an entry `Remount read/write`. -/
structure Session where
  fstab : Text
  mtab : Text
  ntfsopts : Text
  desktops : List Text

/-- One partition. `mount` is what `/sbin/mount` makes of `/etc/mtab` for a mount point. -/
def mountPartition (cwd : WorkDir) (mount : Text → Text → Text) (s : Session) (line : Text) :
    Session :=
  let ws := lineWords cwd line
  let device := cutFirst (echo ws)
  let point := "/mnt/".toList ++ basename [device]
  let ntfsopts :=
    if !noOutput (grep .basic "NTFS".toList (echo ws)) then umaskOption else s.ntfsopts
  let s := { s with ntfsopts := ntfsopts }
  if !noOutput (grep .basic device s.fstab) then s
  else
    let fs := fileSystem ((line.drop 52).take 2)
    if fs = [] then s
    else
      let s := { s with fstab := s.fstab ++ (fstabLine device fs ntfsopts ++ ['\n']) }
      if !noOutput (grep .basic device s.mtab) then s
      else
        { s with
          mtab := mount point s.mtab
          desktops := if ntfsopts = [] then s.desktops ++ [device] else s.desktops }

/-- `fdisk -l|grep '^/dev/'|while read LINE` -/
def rcMount (cwd : WorkDir) (mount : Text → Text → Text) (fdisk : Text) (s : Session) : Session :=
  (readValues (unlines (grep .basic "^/dev/".toList fdisk))).foldl (mountPartition cwd mount) s

/-! ## The listing -/

/-- A character of a device name. -/
def deviceChar (c : Char) : Bool :=
  !isBlank c && globOrdinary c && Flavour.basic.ordinary c

/-- A line of `fdisk -l` about a partition: the device and, after a blank, the rest. -/
structure Partition where
  device : Text
  rest : Text
  device_char : ∀ c ∈ device, deviceChar c = true
  dev : "/dev/".toList <+: device
  rest_char : ∀ c ∈ rest, c ≠ '\\' ∧ c ≠ '\n'
  trimmed : trim (device ++ ' ' :: rest) = device ++ ' ' :: rest
  rest_word : ∀ w ∈ words rest, w = ['*'] ∨ ∀ c ∈ w, globOrdinary c = true

def Partition.line (p : Partition) : Text := p.device ++ ' ' :: p.rest

/-- The column `Id`: the fifth one after the device, or the fourth one when there is no boot
flag. -/
def Partition.id (p : Partition) : Text :=
  match words p.rest with
  | [] => []
  | w :: ws => if w = ['*'] then ws.getD 3 [] else (w :: ws).getD 3 []

/-- Extended partitions and swap space. -/
def Partition.special (p : Partition) : Bool :=
  p.id ∈ ["5".toList, "f".toList, "85".toList, "82".toList]

/-- The output of `fdisk -l`, with one line beginning with `/dev/` for each partition. -/
structure Listing where
  output : Text
  partitions : List Partition
  lines : grep .basic "^/dev/".toList output = partitions.map Partition.line
  distinct : (partitions.map Partition.device).Nodup

/-- The device has an entry in the file. -/
def inFstab (fstab device : Text) : Prop := ∃ l ∈ fileLines fstab, (words l).head? = some device

instance (fstab device : Text) : Decidable (inFstab fstab device) :=
  inferInstanceAs (Decidable (∃ l ∈ fileLines fstab, _))

/-- A partition that should get a line in `/etc/fstab`. -/
def Due (fstab : Text) (p : Partition) : Prop := p.special = false ∧ ¬ inFstab fstab p.device

instance (fstab : Text) (p : Partition) : Decidable (Due fstab p) :=
  inferInstanceAs (Decidable (_ ∧ _))

/-- The partition's own line says that it is an NTFS partition. -/
def Partition.saysNtfs (p : Partition) : Prop := "NTFS".toList <:+: p.line

instance (p : Partition) : Decidable p.saysNtfs := inferInstanceAs (Decidable (_ <:+: _))

/-- The line for a partition, as far as its own line in the listing determines it. -/
def Partition.ownLine (p : Partition) : Text :=
  fstabLine p.device (fileSystem ((p.line.drop 52).take 2))
    (if p.saysNtfs then umaskOption else [])

/-- Exactly the partitions that are due get their own line. -/
def EachOnItsOwn (cwd : WorkDir) (mount : Text → Text → Text) (l : Listing) (fstab mtab : Text) :
    Prop :=
  fileLines (rcMount cwd mount l.output ⟨fstab, mtab, [], []⟩).fstab =
    fileLines fstab ++ (l.partitions.filter fun p => Due fstab p).map Partition.ownLine

end Backpack.Rc
