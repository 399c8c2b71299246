import Backpack.Squashfs.Format

/-!
# `mksquashfs`

How a directory becomes an image: the data of the files and the blocks of file ends one after the
other as they come, then the tables of inodes and directories, which are kept in memory until all
files are written, then the rest.

`none` is a run that ends early, that counts too far, or that takes what was never set: the block
list of another file beyond its end.
-/

namespace Squashfs

variable (z : Zlib)

/-! ## What was found in the source directory -/

/-- The members of `struct stat` that are stored. -/
structure Stat where
  mode : ℕ
  uid : ℕ
  gid : ℕ
  mtime : ℕ
  uid_lt : uid < 2 ^ 32
  gid_lt : gid < 2 ^ 32

/-- What a file is, and what is read of it. -/
inductive Contents where
  | reg (content : Bytes)
  | symlink (target : Bytes)
  | chrdev (major minor : ℕ)
  | blkdev (major minor : ℕ)
  | fifo
  | socket

/-- `struct inode_info` of a file: the same for all its names. -/
structure Node where
  stat : Stat
  nlink : ℕ
  contents : Contents

/-- `struct dir_info`: the entries of a directory. A file is given by its inode number, where numbers
begin at zero. -/
inductive Entries where
  | nil
  | file (name : Bytes) (number : ℕ) (rest : Entries)
  | dir (name : Bytes) (stat : Stat) (number : ℕ) (sub : Entries) (rest : Entries)

/-- `count` -/
def Entries.count : Entries → ℕ
  | .nil => 0
  | .file _ _ rest => rest.count + 1
  | .dir _ _ _ _ rest => rest.count + 1

/-- `byte_count`: the names with `sizeof(squashfs_dir_entry)` each. -/
def Entries.byteCount : Entries → ℕ
  | .nil => 0
  | .file name _ rest => name.length + 5 + rest.byteCount
  | .dir name _ _ _ rest => name.length + 5 + rest.byteCount

/-- `directory_count` -/
def Entries.directoryCount : Entries → ℕ
  | .nil => 0
  | .file _ _ rest => rest.directoryCount
  | .dir _ _ _ _ rest => rest.directoryCount + 1

/-- `dir_is_ldir` -/
def Entries.isLdir (es : Entries) : Bool := !(es.count < 257 && es.byteCount < metadataSize)

/-- The directories at all depths. -/
def Entries.dirs : Entries → ℕ
  | .nil => 0
  | .file _ _ rest => rest.dirs
  | .dir _ _ _ sub rest => sub.dirs + rest.dirs + 1

/-- The files at all depths, by their numbers. -/
def Entries.files : Entries → List ℕ
  | .nil => []
  | .file _ k rest => k :: rest.files
  | .dir _ _ _ sub rest => sub.files ++ rest.files

/-- The names at all depths. -/
def Entries.names : Entries → List Bytes
  | .nil => []
  | .file name _ rest => name :: rest.names
  | .dir name _ _ sub rest => name :: (sub.names ++ rest.names)

/-- The names in a directory. -/
def Entries.heads : Entries → List Bytes
  | .nil => []
  | .file name _ rest => name :: rest.heads
  | .dir name _ _ _ rest => name :: rest.heads

/-- `sort_directory`: at every depth the names are in the order of `strcmp`. -/
def Entries.Sorted : Entries → Prop
  | .nil => True
  | .file name _ rest => (∀ n ∈ rest.heads, name < n) ∧ rest.Sorted
  | .dir name _ _ sub rest => (∀ n ∈ rest.heads, name < n) ∧ sub.Sorted ∧ rest.Sorted

/-- What the first scan of the source directory leaves. -/
structure Scan where
  stat : Stat
  number : ℕ
  entries : Entries
  nodes : List Node
  dirInodeNo : ℕ
  -- every file has an `inode_info`, and every directory took a number from one on
  lt_of_mem : ∀ k ∈ entries.files, k < nodes.length
  mem_of_lt : ∀ k < nodes.length, k ∈ entries.files
  dirInodeNo_eq : dirInodeNo = entries.dirs + 2
  sorted : entries.Sorted
  -- names and targets are strings
  names : ∀ n ∈ entries.names, n ≠ [] ∧ n.length ≤ nameLen ∧ 0 ∉ n
  targets : ∀ node ∈ nodes, ∀ t, node.contents = .symlink t → t.length < 2 ^ 16 ∧ 0 ∉ t

/-! ## The state -/

/-- `struct fragment` -/
structure Fragment where
  index : ℕ
  offset : ℕ
  size : ℕ

/-- `empty_fragment` -/
def emptyFragment : Fragment := ⟨invalidFrag, 0, 0⟩

/-- `struct file_info` -/
structure FileInfo where
  bytes : ℕ
  checksum : BitVec 16
  start : ℕ
  blockList : List ℕ
  fragment : Fragment
  fragmentChecksum : BitVec 16

/-- The variables of the program. -/
structure Mk where
  -- what was written to the image; `bytes` is its length
  out : Bytes
  -- the first `fragment_size` bytes
  fragmentData : Bytes
  fragmentTable : List FragmentEntry
  -- `inode_table` with `data_cache`, `directory_table` with `directory_data_cache`
  inodes : Framed.Stream UInt8 UInt8
  directories : Framed.Stream UInt8 UInt8
  uids : List ℕ
  guids : List ℕ
  -- `inode` and `type` of the files that have one
  infos : List (ℕ × ℕ × ℕ)
  -- `dupl` and `frag_dups`, the newest first
  dupl : List FileInfo
  inodeCount : ℕ

/-- The image begins with room for the super block. -/
def Mk.init : Mk :=
  ⟨List.replicate superSize 0, [], [], ⟨[], []⟩, ⟨[], []⟩, [], [], [], [], 0⟩

/-! ## Inodes -/

/-- `get_inode`, with the bytes that are put there, and `MKINODE`. -/
def getInode (o : Options) (record : Bytes) (st : Mk) : ℕ × Mk :=
  let s := st.inodes.flush (metaBlock z o.checkData o.noI) metadataSize st.inodes.cache.length
  (s.table.length * 2 ^ 16 + s.cache.length, { st with inodes := ⟨s.table, s.cache ++ record⟩ })

/-- `get_uid` -/
def getUid (uid : ℕ) (st : Mk) : ℕ × Mk :=
  if uid ∈ st.uids then (st.uids.idxOf uid, st)
  else if st.uids.length = squashfsUids then (0, st)
  else (st.uids.length, { st with uids := st.uids ++ [uid] })

/-- `get_guid` -/
def getGuid (uid guid : ℕ) (st : Mk) : ℕ × Mk :=
  if uid = guid then (squashfsGuids, st)
  else if guid ∈ st.guids then (st.guids.idxOf guid, st)
  else if st.guids.length = squashfsGuids then (squashfsGuids, st)
  else (st.guids.length, { st with guids := st.guids ++ [guid] })

/-- `create_inode`; `record` makes the bytes of the inode from its base header. -/
def createInode (o : Options) (stat : Stat) (type number : ℕ) (record : BaseInodeHeader → Bytes)
    (st : Mk) : ℕ × Mk :=
  let owner := o.globalUid.getD stat.uid
  let u := getUid owner st
  let g := getGuid owner (o.globalGid.getD stat.gid) u.2
  let base : BaseInodeHeader := ⟨type, stat.mode &&& 0xfff, u.1, g.1, stat.mtime, number⟩
  let r := getInode z o (record base) g.2
  (r.1, { r.2 with inodeCount := r.2.inodeCount + 1 })

/-! ## Directories -/

/-- `struct directory`: the bytes before the header that is open, and the entries behind it, whose
number is not known yet. -/
structure Directory where
  done : Bytes
  -- `start_block` and `inode_number`; none while `entry_count_p` is not set
  header : Option (ℕ × ℕ)
  body : Bytes
  entryCount : ℕ
  index : List (ℕ × Bytes)
  -- `index_count_p - buff`
  indexCount : ℕ

/-- `scan2_init_dir` -/
def Directory.init : Directory := ⟨[], none, [], 256, [], 0⟩

/-- The buffer, with the header that was open. -/
def Directory.buff (d : Directory) : Bytes :=
  match d.header with
  | none => d.done
  | some h => d.done ++ DirHeader.encode ⟨d.entryCount - 1, h.1, h.2⟩ ++ d.body

/-- `add_dir` -/
def addDir (inode inodeNumber : ℕ) (name : Bytes) (type : ℕ) (d : Directory) : Directory :=
  let startBlock := inode / 2 ^ 16
  let offset := inode % 2 ^ 16
  let name := name.take nameLen
  let p := d.buff.length
  let far : Bool := d.header.isSome && (metadataSize < p + 5 + name.length - d.indexCount)
  let delta : ℤ := inodeNumber - (d.header.elim 0 Prod.snd : ℕ)
  let d' :=
    if d.entryCount = 256 ∨ d.header.elim 0 Prod.fst ≠ startBlock ∨ far ∨ 32767 < delta ∨
        delta < -32768 then
      { done := d.buff
        header := some (startBlock, inodeNumber)
        body := []
        entryCount := 0
        index := if far then d.index ++ [(p, name)] else d.index
        indexCount := if far then p else d.indexCount }
    else d
  let delta : ℤ := inodeNumber - (d'.header.elim 0 Prod.snd : ℕ)
  { d' with
    body := d'.body ++ (DirEntry.encode ⟨offset, type, name.length - 1, delta⟩ ++ name)
    entryCount := d'.entryCount + 1 }

/-- The loop of `write_dir`: a block leaves the cache, and the index entries in it learn where its
frame begins. -/
def indexLoop (frame : Bytes → Bytes) :
    ℕ → ℕ → Framed.Stream UInt8 UInt8 → List (ℕ × Bytes) → List (ℕ × ℕ × Bytes) →
      Framed.Stream UInt8 UInt8 × List (ℕ × ℕ × Bytes)
  | 0, _, s, rest, set => (s, set ++ rest.map fun e => (e.1, 0, e.2))
  | n + 1, limit, s, rest, set =>
    let set := set ++ (rest.takeWhile fun e => e.1 < limit).map fun e => (e.1, s.table.length, e.2)
    let rest := rest.dropWhile fun e => e.1 < limit
    if metadataSize ≤ s.cache.length then
      indexLoop frame n (limit + metadataSize)
        ⟨s.table ++ frame (s.cache.take metadataSize), s.cache.drop metadataSize⟩ rest set
    else (s, set ++ rest.map fun e => (e.1, 0, e.2))

/-- `write_dir` -/
def writeDir (o : Options) (es : Entries) (stat : Stat) (number parent : ℕ) (d : Directory)
    (st : Mk) : Option (ℕ × Mk) :=
  let buff := d.buff
  let offset := st.directories.cache.length
  let block := st.directories.table.length
  let r := indexLoop (metaBlock z o.checkData o.noI) (st.directories.cache ++ buff).length
    (metadataSize - offset) ⟨st.directories.table, st.directories.cache ++ buff⟩ d.index []
  let st := { st with directories := r.1 }
  let h : DirInodeHeader := ⟨es.directoryCount + 2, buff.length + 3, offset, block, parent⟩
  if es.isLdir then
    -- directory greater than 2^27-1 bytes
    if 2 ^ 27 ≤ buff.length + 3 then none
    else
      some (createInode z o stat ldirType number
        (fun b => h.encodeL b r.2.length ++
          r.2.flatMap fun e => encodeDirIndex e.1 e.2.1 (e.2.2.length - 1) ++ e.2.2) st)
  else some (createInode z o stat dirType number (fun b => h.encode b) st)

/-! ## Files -/

/-- `write_fragment`. The number of fragments is an `int`. -/
def writeFragment (o : Options) (st : Mk) : Option Mk :=
  if st.fragmentData.length = 0 then some st
  else if 2 ^ 31 ≤ st.fragmentTable.length + 1 then none
  else
    let r := mangle z st.fragmentData o.noF compressedBitBlock
    some { st with
      fragmentTable := st.fragmentTable ++ [⟨st.out.length, r.1⟩]
      out := st.out ++ r.2
      fragmentData := [] }

/-- `get_and_fill_fragment` -/
def getAndFillFragment (o : Options) (buff : Bytes) (st : Mk) : Option (Fragment × Mk) :=
  if buff.length = 0 then some (emptyFragment, st)
  else do
    let st ←
      if o.blockSize < st.fragmentData.length + buff.length then writeFragment z o st else some st
    some (⟨st.fragmentTable.length, st.fragmentData.length, buff.length⟩,
      { st with fragmentData := st.fragmentData ++ buff })

/-- `get_checksum` -/
def getChecksum (data : Bytes) : BitVec 16 :=
  data.foldl (fun chksum b =>
    (if chksum &&& 1 ≠ 0 then chksum >>> 1 ||| 0x8000 else chksum >>> 1) + BitVec.ofNat 16 b.toNat) 0

/-- `read_bytes`, when all of them are there. -/
def readBytes (image : Bytes) (byte n : ℕ) : Option Bytes :=
  if image.length < byte + n then none else some ((image.drop byte).take n)

/-- A block of data, of at most `bound` bytes. -/
def readStored (image : Bytes) (bound start size : ℕ) : Option Bytes :=
  let c := compressedSize compressedBitBlock size
  if bound < c then none
  else do
    let data ← readBytes image start c
    if isCompressed compressedBitBlock size then
      let block ← z.uncompress data
      if bound < block.length then none else some block
    else some data

/-- `get_fragment` -/
def getFragment (o : Options) (st : Mk) (f : Fragment) : Option Bytes := do
  let entry ← st.fragmentTable[f.index]?
  let block ← readStored z st.out o.blockSize entry.startBlock entry.size
  some (block.drop f.offset)

/-- The test of `duplicate`: the stored bytes are the same, and the ends of the files. -/
def sameFile (o : Options) (st : Mk) (data frag : Bytes) (f : FileInfo) : Bool :=
  -- the hash chain
  (if data.length = 0 then f.bytes = 0 else f.bytes ≠ 0 ∧ f.checksum = getChecksum data) &&
  f.bytes = data.length && frag.length = f.fragment.size &&
  f.fragmentChecksum = getChecksum frag &&
  (st.out.drop f.start).take f.bytes = data &&
  (frag.length = 0 ||
    (if f.fragment.index = st.fragmentTable.length ∨ f.fragment.index = invalidFrag then
      (st.fragmentData.drop f.fragment.offset).take frag.length = frag
    else (getFragment z o st f.fragment).any fun b => b.take frag.length = frag))

/-- How `write_file` takes a file apart: the number of its blocks, and whether its end goes to a
fragment. -/
def fragmented (o : Options) (content : Bytes) : Bool :=
  !o.noFragments && (content.length < o.blockSize || o.alwaysUseFragments)

def blockCount (o : Options) (content : Bytes) : ℕ :=
  if fragmented o content then content.length / o.blockSize
  else Framed.count o.blockSize content.length

/-- The blocks as they are stored, with their sizes. -/
def storedBlocks (o : Options) (content : Bytes) : List (ℕ × Bytes) :=
  (Framed.blocks o.blockSize (blockCount o content) content).map fun b =>
    mangle z b o.noD compressedBitBlock

def fileEnd (o : Options) (content : Bytes) : Bytes :=
  if fragmented o content then content.drop (blockCount o content * o.blockSize) else []

/-- `create_inode` of a regular file -/
def createReg (o : Options) (node : Node) (size number start : ℕ) (blockList : List ℕ)
    (fragment : Fragment) (st : Mk) : ℕ × Mk :=
  let h : RegInodeHeader := ⟨start, fragment.index, fragment.offset, size⟩
  let list := blockList.flatMap (Packed.toBytes 4)
  if node.nlink = 1 ∧ size < 2 ^ 30 - 1 then
    createInode z o node.stat fileType number (fun b => h.encode b ++ list) st
  else createInode z o node.stat lregType number (fun b => h.encodeL b node.nlink ++ list) st

/-- `write_file`, when the buffer for the whole file can be had. -/
def writeFile (o : Options) (node : Node) (content : Bytes) (number : ℕ) (st : Mk) :
    Option (ℕ × Mk) :=
  let stored := storedBlocks z o content
  let data := stored.flatMap Prod.snd
  let frag := fileEnd o content
  match if o.duplicateChecking then st.dupl.find? (sameFile z o st data frag) else none with
  | some f =>
    -- as many sizes as the file has blocks are taken from the other block list
    if f.blockList.length < stored.length then none
    else some (createReg z o node content.length number f.start (f.blockList.take stored.length)
      f.fragment st)
  | none => do
    let list := stored.map Prod.fst
    let r ← getAndFillFragment z o frag { st with out := st.out ++ data }
    let info : FileInfo :=
      ⟨data.length, getChecksum data, st.out.length, list, r.1, getChecksum frag⟩
    let st' := if o.duplicateChecking then { r.2 with dupl := info :: r.2.dupl } else r.2
    some (createReg z o node content.length number st.out.length list r.1 st')

/-! ## The second scan -/

/-- `create_inode` and `write_file`, as `dir_scan2` calls them for a file. -/
def createFile (o : Options) (node : Node) (number : ℕ) (st : Mk) : Option (ℕ × ℕ × Mk) :=
  match node.contents with
  | .reg content => (writeFile z o node content number st).map fun r => (r.1, fileType, r.2)
  | .symlink target =>
    let r := createInode z o node.stat symlinkType number
      (fun b => encodeShort b node.nlink target.length ++ target) st
    some (r.1, symlinkType, r.2)
  | .chrdev major minor =>
    let r := createInode z o node.stat chrdevType number
      (fun b => encodeShort b node.nlink (major * 2 ^ 8 + minor % 2 ^ 8)) st
    some (r.1, chrdevType, r.2)
  | .blkdev major minor =>
    let r := createInode z o node.stat blkdevType number
      (fun b => encodeShort b node.nlink (major * 2 ^ 8 + minor % 2 ^ 8)) st
    some (r.1, blkdevType, r.2)
  | .fifo =>
    let r := createInode z o node.stat fifoType number (fun b => encodeIpc b node.nlink) st
    some (r.1, fifoType, r.2)
  | .socket =>
    let r := createInode z o node.stat socketType number (fun b => encodeIpc b node.nlink) st
    some (r.1, socketType, r.2)

/-- The loop of `dir_scan2` over the entries of a directory, whose inode number is `self`. -/
def dirScan2 (o : Options) (nodes : List Node) (dirInodeNo self : ℕ) :
    Entries → Directory → Mk → Option (Directory × Mk)
  | .nil, d, st => some (d, st)
  | .file name k rest, d, st => do
    let r ←
      match st.infos.lookup k with
      | some (inode, type) => some (inode, type, st)
      | none => do
        let node ← nodes[k]?
        let r ← createFile z o node (k + dirInodeNo) st
        some (r.1, r.2.1, { r.2.2 with infos := (k, r.1, r.2.1) :: r.2.2.infos })
    dirScan2 o nodes dirInodeNo self rest (addDir r.1 (k + dirInodeNo) name r.2.1 d) r.2.2
  | .dir name stat number sub rest, d, st => do
    let r ← dirScan2 o nodes dirInodeNo number sub Directory.init st
    let w ← writeDir z o sub stat number self r.1 r.2
    dirScan2 o nodes dirInodeNo self rest (addDir w.1 number name dirType d) w.2

/-- `dir_scan` -/
def dirScan (o : Options) (sc : Scan) : Option (ℕ × Mk) := do
  let r ← dirScan2 z o sc.nodes sc.dirInodeNo sc.number sc.entries Directory.init Mk.init
  writeDir z o sc.entries sc.stat sc.number (sc.dirInodeNo + sc.nodes.length) r.1 r.2

/-! ## The end of `main` -/

/-- What the stack and the heap hold where nothing is set. -/
structure Memory where
  sBlk : SuperBlock
  unused : ℕ → ℕ
  cbuffer : ℕ → UInt8

/-- A block as `write_fragment_table` writes it. The size of an empty one is taken for 32768, and
as many bytes are written from `cbuffer`. -/
def fragmentBlock (o : Options) (mem : Memory) (b : Bytes) : Bytes :=
  metaBlock z o.checkData o.noF b ++
    if b = [] then (List.range (2 ^ 15)).map mem.cbuffer else []

/-- `write_fragment_table`, with the place of the list of its blocks. -/
def writeFragmentTable (o : Options) (mem : Memory) (table : List FragmentEntry) (out : Bytes) :
    ℕ × Bytes :=
  let buffer := table.zipIdx.flatMap fun e => e.1.encode (mem.unused e.2)
  let metaBlocks := Framed.count metadataSize buffer.length
  -- the last block has `frag_bytes % SQUASHFS_METADATA_SIZE` bytes, even when that is nothing
  let blocks := (Framed.blocks metadataSize metaBlocks buffer).mapIdx fun i b =>
    if i = metaBlocks - 1 then b.take (buffer.length % metadataSize) else b
  let r := blocks.foldl (fun r b => (r.1 ++ fragmentBlock z o mem b, r.2 ++ [r.1.length])) (out, [])
  (r.1.length, r.1 ++ r.2.flatMap (Packed.toBytes 8))

/-- `SQUASHFS_MKFLAGS` -/
def Options.flags (o : Options) : ℕ :=
  Packed.pack [(1, o.noI.toNat), (1, o.noD.toNat), (1, o.checkData.toNat), (1, o.noF.toNat),
    (1, o.noFragments.toNat), (1, o.alwaysUseFragments.toNat), (1, o.duplicateChecking.toNat)]

/-- What `main` writes after the scan. -/
def writeTables (o : Options) (mem : Memory) (nopad : Bool) (root : ℕ) (st : Mk) : Option Bytes := do
  let st ← writeFragment z o st
  let frame := metaBlock z o.checkData o.noI
  let inodeTable := (st.inodes.finish frame metadataSize st.inodes.cache.length).table
  let directoryTable := (st.directories.finish frame metadataSize st.directories.cache.length).table
  let inodeTableStart := st.out.length
  let directoryTableStart := inodeTableStart + inodeTable.length
  let (fragmentTableStart, out) :=
    writeFragmentTable z o mem st.fragmentTable (st.out ++ inodeTable ++ directoryTable)
  let uidStart := out.length
  let out := out ++ st.uids.flatMap (Packed.toBytes 4)
  let guidStart := out.length
  let out := out ++ st.guids.flatMap (Packed.toBytes 4)
  let sBlk : SuperBlock := { mem.sBlk with
    sMagic := squashfsMagic
    inodes := st.inodeCount
    sMajor := 3
    sMinor := 0
    blockLog := o.blockLog
    flags := o.flags
    noUids := st.uids.length
    noGuids := st.guids.length
    rootInode := root
    blockSize := o.blockSize
    fragments := st.fragmentTable.length
    bytesUsed := out.length
    uidStart := if st.uids.length = 0 then 0 else uidStart
    guidStart := if st.guids.length = 0 then 0 else guidStart
    inodeTableStart := inodeTableStart
    directoryTableStart := directoryTableStart
    fragmentTableStart := fragmentTableStart
    unused := 2 ^ 64 - 1 }
  let image := sBlk.encode ++ out.drop superSize
  some (if nopad then image else image ++ List.replicate ((4096 - out.length % 4096) % 4096) 0)

/-- `mksquashfs` of one directory to a new image. -/
def mksquashfs (o : Options) (mem : Memory) (nopad : Bool) (sc : Scan) : Option Bytes := do
  let r ← dirScan z o sc
  writeTables z o mem nopad r.1 r.2

end Squashfs
