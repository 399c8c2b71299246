import Backpack.Squashfs.Mksquashfs

/-!
# `unsquashfs`

How an image becomes a directory again. What the program does to the file system is the list of
its calls, all of which are taken to succeed.

`none` is a run that ends early, that does not end, that finds a block it cannot read, or that
reads or writes beyond what it has.
-/

namespace Squashfs

variable (z : Zlib)

/-- The calls that make the files. -/
inductive Call where
  | mkdir (path : Bytes) (mode : ℕ)
  -- `open` with `O_CREAT`, and what is written
  | create (path : Bytes) (mode : ℕ) (content : Bytes)
  | link (old new : Bytes)
  | symlink (target path : Bytes)
  | mknod (path : Bytes) (type major minor : ℕ)
  | mkfifo (path : Bytes)
  | utime (path : Bytes) (mtime : ℕ)
  | chmod (path : Bytes) (mode : ℕ)
  | chown (path : Bytes) (uid gid : ℕ)
  | lchown (path : Bytes) (uid gid : ℕ)

/-- What `strcpy` copies. -/
def cString (bs : Bytes) : Bytes := bs.takeWhile (· ≠ 0)

/-! ## Tables -/

/-- `read_block`, with the place of the next block. -/
def readBlock (image : Bytes) (checkData : Bool) (start : ℕ) : Option (Bytes × ℕ) := do
  let cByte ← readBytes image start 2
  let c := Packed.ofBytes cByte
  let size := compressedSize compressedBit c
  let offset := blockOffset checkData
  if metadataSize < size then none
  else do
    let data ← readBytes image (start + offset) size
    if isCompressed compressedBit c then
      let block ← z.uncompress data
      if metadataSize < block.length then none else some (block, start + offset + size)
    else some (data, start + offset + size)

/-- `lookup_entry`, where the places are `int`s. -/
def lookupEntry (hashTable : List (ℕ × ℕ)) (start : ℕ) : Option ℕ :=
  (hashTable.find? fun e => e.1 % 2 ^ 32 = start % 2 ^ 32).map Prod.snd

/-- The blocks of `uncompress_inode_table`: the table, and where each block begins in it. -/
def readTable (image : Bytes) (checkData : Bool) (start stop : ℕ) :
    Option (Bytes × List (ℕ × ℕ)) :=
  Framed.readBlocks (readBlock z image checkData) stop (stop - start + 1) start [] []

/-- `size`: before a block is read there is room for one more. -/
def tableSize (size : ℕ) : List (ℕ × ℕ) → ℕ
  | [] => size
  | e :: index =>
    tableSize (if size - e.2 < metadataSize then size + metadataSize else size) index

/-- `uncompress_inode_table` and `uncompress_directory_table`, where `size` is an `int`. -/
def uncompressTable (image : Bytes) (checkData : Bool) (start stop : ℕ) :
    Option (Bytes × List (ℕ × ℕ)) := do
  let r ← readTable z image checkData start stop
  if 2 ^ 31 ≤ tableSize 0 r.2.reverse then none else some r

/-- `read_uids_guids` and other tables of numbers of `n` bytes. -/
def readInts (n : ℕ) : ℕ → Bytes → List ℕ
  | 0, _ => []
  | k + 1, bs => Packed.ofBytes (bs.take n) :: readInts n k (bs.drop n)

/-- The blocks of `read_fragment_table`. -/
def readFragmentBlocks (image : Bytes) (checkData : Bool) : List ℕ → Option Bytes
  | [] => some []
  | start :: index => do
    let b ← readBlock z image checkData start
    let rest ← readFragmentBlocks image checkData index
    some (b.1 ++ rest)

/-- The entries of a table of fragments. -/
def readEntries : ℕ → Bytes → Option (List FragmentEntry)
  | 0, _ => some []
  | k + 1, bs => do
    let e ← FragmentEntry.decode bs
    let rest ← readEntries k (bs.drop 16)
    some (e :: rest)

/-- `read_fragment_table` -/
def readFragmentTable (image : Bytes) (sBlk : SuperBlock) (checkData : Bool) :
    Option (List FragmentEntry) := do
  let indexes := Framed.count metadataSize (sBlk.fragments * 16)
  let list ← readBytes image sBlk.fragmentTableStart (indexes * 8)
  let table ← readFragmentBlocks z image checkData (readInts 8 indexes list)
  readEntries sBlk.fragments table

/-- What `main` has read before the first directory. -/
structure Tables where
  image : Bytes
  sBlk : SuperBlock
  inodeTable : Bytes
  inodeHash : List (ℕ × ℕ)
  directoryTable : Bytes
  directoryHash : List (ℕ × ℕ)
  fragmentTable : List FragmentEntry
  uidTable : List ℕ
  guidTable : List ℕ

/-! ## Files -/

/-- The blocks of `write_file`. -/
def readDataBlocks (image : Bytes) (blockSize : ℕ) : ℕ → List ℕ → Option Bytes
  | _, [] => some []
  | start, size :: list => do
    let b ← readStored z image blockSize start size
    let rest ← readDataBlocks image blockSize (start + compressedSize compressedBitBlock size) list
    some (b ++ rest)

/-- `write_file`: the content of the file. -/
def fileContent (t : Tables) (fragment fragBytes offset start : ℕ) (blockList : List ℕ) :
    Option Bytes := do
  let blocks ← readDataBlocks z t.image t.sBlk.blockSize start blockList
  if fragBytes = 0 then some blocks
  else do
    -- `read_fragment`
    let entry ← t.fragmentTable[fragment]?
    let data ← readStored z t.image t.sBlk.blockSize entry.startBlock entry.size
    if data.length < offset + fragBytes then none
    else some (blocks ++ (data.drop offset).take fragBytes)

/-- The owner of a file. -/
def owner (t : Tables) (uid guid : ℕ) : Option (ℕ × ℕ) := do
  let u ← t.uidTable[uid]?
  if guid = squashfsGuids then some (u, u)
  else do
    let g ← t.guidTable[guid]?
    some (u, g)

/-- `set_attributes`, run by the super user. -/
def setAttributes (t : Tables) (path : Bytes) (mode uid guid mtime : ℕ) (setMode : Bool) :
    Option (List Call) := do
  let o ← owner t uid guid
  some ([.utime path mtime] ++ (if setMode then [.chmod path mode] else []) ++
    [.chown path o.1 o.2])

/-- The file of an inode, after the test for a hard link. -/
def createContents (t : Tables) (path : Bytes) (b : BaseInodeHeader) (bs : Bytes) :
    Option (List Call) :=
  let reg (h : RegInodeHeader) (list : Bytes) : Option (List Call) := do
    let n := t.sBlk.blockLog
    let fragBytes := if h.fragment = invalidFrag then 0 else h.fileSize % t.sBlk.blockSize
    let blocks :=
      if h.fragment = invalidFrag then (h.fileSize + t.sBlk.blockSize - 1) / 2 ^ n
      else h.fileSize / 2 ^ n
    if list.length < blocks * 4 then none
    else do
      let content ←
        fileContent z t h.fragment fragBytes h.offset h.startBlock (readInts 4 blocks list)
      let attributes ← setAttributes t path b.mode b.uid b.guid b.mtime false
      some (.create path b.mode content :: attributes)
  let mknod (type : ℕ) : Option (List Call) := do
    let rdev ← decodeShort bs
    let attributes ← setAttributes t path b.mode b.uid b.guid b.mtime true
    some (.mknod path type (rdev / 2 ^ 8 % 2 ^ 8) (rdev % 2 ^ 8) :: attributes)
  if b.inodeType = fileType then do
    let h ← RegInodeHeader.decode bs
    reg h (bs.drop 32)
  else if b.inodeType = lregType then do
    let h ← RegInodeHeader.decodeL bs
    reg h (bs.drop 40)
  else if b.inodeType = symlinkType then do
    let size ← decodeShort bs
    let name ← readBytes bs 18 size
    let o ← owner t b.uid b.guid
    some [.symlink (cString name) path, .lchown path o.1 o.2]
  else if b.inodeType = blkdevType ∨ b.inodeType = chrdevType then mknod b.inodeType
  else if b.inodeType = fifoType then do
    let attributes ← setAttributes t path b.mode b.uid b.guid b.mtime true
    some (.mkfifo path :: attributes)
  -- sockets are ignored
  else some []

/-- `create_inode`, with the files that were created, by their inode numbers. -/
def unsquashInode (t : Tables) (path : Bytes) (startBlock offset : ℕ) (created : List (ℕ × Bytes)) :
    Option (List Call × List (ℕ × Bytes)) :=
  match lookupEntry t.inodeHash (t.sBlk.inodeTableStart + startBlock) with
  -- inode block out of range
  | none => some ([], created)
  | some bytes => do
    let bs := t.inodeTable.drop (bytes + offset)
    let b ← BaseInodeHeader.decode bs
    -- `created_inode[inode_number - 1]`
    if b.inodeNumber = 0 ∨ t.sBlk.inodes < b.inodeNumber then none
    else
      match created.lookup b.inodeNumber with
      | some old => some ([.link old path], created)
      | none =>
        -- unknown inode type
        if b.inodeType = 0 ∨ b.inodeType = dirType ∨ b.inodeType = ldirType ∨
            lregType < b.inodeType then some ([], created)
        else do
          let calls ← createContents z t path b bs
          some (calls, (b.inodeNumber, path) :: created)

/-! ## Directories -/

/-- `struct dir_ent` -/
structure DirEnt where
  name : Bytes
  startBlock : ℕ
  offset : ℕ
  type : ℕ

/-- The entries behind a header of a directory, with the place behind them. -/
def readDirEntries (table : Bytes) (startBlock : ℕ) : ℕ → ℕ → Option (List DirEnt × ℕ)
  | 0, bytes => some ([], bytes)
  | k + 1, bytes => do
    let e ← DirEntry.decode (table.drop bytes)
    let name ← readBytes table (bytes + 5) (e.2.2 + 1)
    let r ← readDirEntries table startBlock k (bytes + 5 + (e.2.2 + 1))
    some (⟨cString name, startBlock, e.1, e.2.1⟩ :: r.1, r.2)

/-- The headers of a directory. -/
def readDirHeaders (table : Bytes) (size : ℕ) : ℕ → ℕ → Option (List DirEnt)
  | 0, _ => none
  | n + 1, bytes =>
    if bytes < size then do
      let h ← DirHeader.decode (table.drop bytes)
      let r ← readDirEntries table h.startBlock (h.count + 1) (bytes + 9)
      let rest ← readDirHeaders table size n r.2
      some (r.1 ++ rest)
    else some []

/-- `squashfs_openddir`: a directory, or nothing when it is not found. -/
def squashfsOpenddir (t : Tables) (blockStart offset : ℕ) :
    Option (Option (BaseInodeHeader × List DirEnt)) :=
  match lookupEntry t.inodeHash (t.sBlk.inodeTableStart + blockStart) with
  | none => some none
  | some bytes => do
    let bs := t.inodeTable.drop (bytes + offset)
    let b ← BaseInodeHeader.decode bs
    let h ←
      if b.inodeType = dirType then (DirInodeHeader.decode bs).map some
      else if b.inodeType = ldirType then (DirInodeHeader.decodeL bs).map some
      else some none
    match h with
    -- not a directory
    | none => some none
    | some h =>
      match lookupEntry t.directoryHash (t.sBlk.directoryTableStart + h.startBlock) with
      | none => some none
      | some bytes => do
        let bytes := bytes + h.offset
        let dirs ←
          readDirHeaders t.directoryTable (bytes + h.fileSize - 3) (h.fileSize + 1) bytes
        some (some (b, dirs))

/-- `dir_scan`. The path of a file must fit in `pathname`. -/
def unsquashDir (t : Tables) :
    ℕ → Bytes → ℕ → ℕ → List (ℕ × Bytes) → Option (List Call × List (ℕ × Bytes))
  | 0, _, _, _, _ => none
  | n + 1, parent, startBlock, offset, created => do
    let dir ← squashfsOpenddir t startBlock offset
    match dir with
    | none => some ([], created)
    | some (b, dirs) => do
      let r ← dirs.foldlM (fun (r : List Call × List (ℕ × Bytes)) e => do
        let pathname := parent ++ 47 :: e.name
        if 1024 ≤ pathname.length then none
        else do
          let r' ←
            if e.type = dirType then unsquashDir t n pathname e.startBlock e.offset r.2
            else unsquashInode z t pathname e.startBlock e.offset r.2
          some (r.1 ++ r'.1, r'.2)) ([.mkdir parent b.mode], created)
      let attributes ← setAttributes t parent b.mode b.uid b.guid b.mtime true
      some (r.1 ++ attributes, r.2)

/-! ## The program -/

/-- The super block of an image. -/
def superBlock (image : Bytes) : Option SuperBlock :=
  (readBytes image 0 superSize).bind SuperBlock.decode

/-- `SQUASHFS_CHECK_DATA` -/
def SuperBlock.checkData (s : SuperBlock) : Bool := s.flags / 2 ^ 2 % 2 = 1

/-- `read_super`, and the tables that `main` reads then. -/
def readTables (image : Bytes) : Option Tables := do
  let sBlk ← superBlock image
  if sBlk.sMagic ≠ squashfsMagic ∨ sBlk.sMajor ≠ 3 ∨ 0 < sBlk.sMinor then none
  else do
    let checkData := sBlk.checkData
    let ids ← readBytes image sBlk.uidStart ((sBlk.noUids + sBlk.noGuids) * 4)
    let fragmentTable ← readFragmentTable z image sBlk checkData
    let inodes ← uncompressTable z image checkData sBlk.inodeTableStart sBlk.directoryTableStart
    let directories ←
      uncompressTable z image checkData sBlk.directoryTableStart sBlk.fragmentTableStart
    some {
      image := image
      sBlk := sBlk
      inodeTable := inodes.1
      inodeHash := inodes.2
      directoryTable := directories.1
      directoryHash := directories.2
      fragmentTable := fragmentTable
      uidTable := readInts 4 sBlk.noUids ids
      guidTable := readInts 4 sBlk.noGuids (ids.drop (sBlk.noUids * 4)) }

/-- `unsquashfs`, to directories of depth below `n`. -/
def unsquashfs (n : ℕ) (dest image : Bytes) : Option (List Call) := do
  let t ← readTables z image
  let r ← unsquashDir z t n dest (t.sBlk.rootInode / 2 ^ 16) (t.sBlk.rootInode % 2 ^ 16) []
  some r.1

end Squashfs
