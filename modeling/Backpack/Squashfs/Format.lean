import Backpack.Packed
import Backpack.Framed

/-!
# The squashfs format

The modules of the live system are squashfs images. These are the structures that an image is
made of, as they lie on disk on a little-endian machine, and the blocks in which data and tables
are stored.
-/

namespace Squashfs

abbrev Bytes := List UInt8

/-- `SQUASHFS_METADATA_SIZE` -/
def metadataSize : ℕ := 8192

/-- `SQUASHFS_NAME_LEN` -/
def nameLen : ℕ := 256

/-- `SQUASHFS_INVALID_FRAG` -/
def invalidFrag : ℕ := 0xffffffff

/-- `SQUASHFS_GUIDS` -/
def squashfsGuids : ℕ := 255

/-- `SQUASHFS_UIDS` -/
def squashfsUids : ℕ := 256

/-- `SQUASHFS_MAGIC` -/
def squashfsMagic : ℕ := 0x73717368

/-! The types of inodes. -/

def dirType : ℕ := 1
def fileType : ℕ := 2
def symlinkType : ℕ := 3
def blkdevType : ℕ := 4
def chrdevType : ℕ := 5
def fifoType : ℕ := 6
def socketType : ℕ := 7
def ldirType : ℕ := 8
def lregType : ℕ := 9

/-- The options of `mksquashfs`, for a new image in the byte order of the machine. -/
structure Options where
  noI : Bool
  noD : Bool
  noF : Bool
  checkData : Bool
  noFragments : Bool
  alwaysUseFragments : Bool
  duplicateChecking : Bool
  globalUid : Option ℕ
  globalGid : Option ℕ
  blockLog : ℕ
  -- `slog` accepts these
  log_bounds : 12 ≤ blockLog ∧ blockLog ≤ 16
  -- of 2^32 - 1, which `main` accepts, `create_inode` thinks that it is not set
  uid_lt : ∀ u ∈ globalUid, u < 2 ^ 32 - 1
  gid_lt : ∀ u ∈ globalGid, u < 2 ^ 32 - 1

def Options.blockSize (o : Options) : ℕ := 2 ^ o.blockLog

/-- `block_offset`: what stands before the data of a metadata block. -/
def blockOffset (checkData : Bool) : ℕ := if checkData then 3 else 2

/-! ## Structures on disk -/

/-- `struct squashfs_base_inode_header` -/
structure BaseInodeHeader where
  inodeType : ℕ
  mode : ℕ
  uid : ℕ
  guid : ℕ
  mtime : ℕ
  inodeNumber : ℕ

def BaseInodeHeader.fields (h : BaseInodeHeader) : List (ℕ × ℕ) :=
  [(4, h.inodeType), (12, h.mode), (8, h.uid), (8, h.guid), (32, h.mtime), (32, h.inodeNumber)]

def BaseInodeHeader.decode (bs : Bytes) : Option BaseInodeHeader :=
  match Packed.decode [4, 12, 8, 8, 32, 32] bs with
  | some [t, m, u, g, mt, n] => some ⟨t, m, u, g, mt, n⟩
  | _ => none

/-- `struct squashfs_reg_inode_header`, after the base. -/
structure RegInodeHeader where
  startBlock : ℕ
  fragment : ℕ
  offset : ℕ
  fileSize : ℕ

def RegInodeHeader.encode (b : BaseInodeHeader) (h : RegInodeHeader) : Bytes :=
  Packed.encode (b.fields ++
    [(64, h.startBlock), (32, h.fragment), (32, h.offset), (32, h.fileSize)])

def RegInodeHeader.decode (bs : Bytes) : Option RegInodeHeader :=
  match Packed.decode [4, 12, 8, 8, 32, 32, 64, 32, 32, 32] bs with
  | some [_, _, _, _, _, _, s, f, o, n] => some ⟨s, f, o, n⟩
  | _ => none

/-- `struct squashfs_lreg_inode_header` -/
def RegInodeHeader.encodeL (b : BaseInodeHeader) (nlink : ℕ) (h : RegInodeHeader) : Bytes :=
  Packed.encode (b.fields ++
    [(32, nlink), (64, h.startBlock), (32, h.fragment), (32, h.offset), (64, h.fileSize)])

def RegInodeHeader.decodeL (bs : Bytes) : Option RegInodeHeader :=
  match Packed.decode [4, 12, 8, 8, 32, 32, 32, 64, 32, 32, 64] bs with
  | some [_, _, _, _, _, _, _, s, f, o, n] => some ⟨s, f, o, n⟩
  | _ => none

/-- `struct squashfs_symlink_inode_header` and `struct squashfs_dev_inode_header`, with the 16 bits
at their end. -/
def encodeShort (b : BaseInodeHeader) (nlink v : ℕ) : Bytes :=
  Packed.encode (b.fields ++ [(32, nlink), (16, v)])

def decodeShort (bs : Bytes) : Option ℕ :=
  match Packed.decode [4, 12, 8, 8, 32, 32, 32, 16] bs with
  | some [_, _, _, _, _, _, _, v] => some v
  | _ => none

/-- `struct squashfs_ipc_inode_header` -/
def encodeIpc (b : BaseInodeHeader) (nlink : ℕ) : Bytes :=
  Packed.encode (b.fields ++ [(32, nlink)])

/-- `struct squashfs_dir_inode_header`, after the base. -/
structure DirInodeHeader where
  nlink : ℕ
  fileSize : ℕ
  offset : ℕ
  startBlock : ℕ
  parentInode : ℕ

def DirInodeHeader.encode (b : BaseInodeHeader) (h : DirInodeHeader) : Bytes :=
  Packed.encode (b.fields ++ [(32, h.nlink), (19, h.fileSize), (13, h.offset), (32, h.startBlock),
    (32, h.parentInode)])

def DirInodeHeader.decode (bs : Bytes) : Option DirInodeHeader :=
  match Packed.decode [4, 12, 8, 8, 32, 32, 32, 19, 13, 32, 32] bs with
  | some [_, _, _, _, _, _, n, f, o, s, p] => some ⟨n, f, o, s, p⟩
  | _ => none

/-- `struct squashfs_ldir_inode_header` -/
def DirInodeHeader.encodeL (b : BaseInodeHeader) (iCount : ℕ) (h : DirInodeHeader) : Bytes :=
  Packed.encode (b.fields ++ [(32, h.nlink), (27, h.fileSize), (13, h.offset), (32, h.startBlock),
    (16, iCount), (32, h.parentInode)])

def DirInodeHeader.decodeL (bs : Bytes) : Option DirInodeHeader :=
  match Packed.decode [4, 12, 8, 8, 32, 32, 32, 27, 13, 32, 16, 32] bs with
  | some [_, _, _, _, _, _, n, f, o, s, _, p] => some ⟨n, f, o, s, p⟩
  | _ => none

/-- `struct squashfs_dir_header` -/
structure DirHeader where
  count : ℕ
  startBlock : ℕ
  inodeNumber : ℕ

def DirHeader.encode (h : DirHeader) : Bytes :=
  Packed.encode [(8, h.count), (32, h.startBlock), (32, h.inodeNumber)]

def DirHeader.decode (bs : Bytes) : Option DirHeader :=
  match Packed.decode [8, 32, 32] bs with
  | some [c, s, n] => some ⟨c, s, n⟩
  | _ => none

/-- `struct squashfs_dir_entry`. The difference of the inode numbers is in two's complement. -/
structure DirEntry where
  offset : ℕ
  type : ℕ
  size : ℕ
  inodeNumber : ℤ

def DirEntry.encode (e : DirEntry) : Bytes :=
  Packed.encode [(13, e.offset), (3, e.type), (8, e.size), (16, (e.inodeNumber % 2 ^ 16).toNat)]

/-- The members that `unsquashfs` reads. -/
def DirEntry.decode (bs : Bytes) : Option (ℕ × ℕ × ℕ) :=
  match Packed.decode [13, 3, 8, 16] bs with
  | some [o, t, s, _] => some (o, t, s)
  | _ => none

/-- `struct squashfs_dir_index` -/
def encodeDirIndex (index startBlock size : ℕ) : Bytes :=
  Packed.encode [(32, index), (32, startBlock), (8, size)]

/-- `struct squashfs_fragment_entry` -/
structure FragmentEntry where
  startBlock : ℕ
  size : ℕ

/-- What the last member was on allocation is stored too. -/
def FragmentEntry.encode (unset : ℕ) (e : FragmentEntry) : Bytes :=
  Packed.encode [(64, e.startBlock), (32, e.size), (32, unset)]

def FragmentEntry.decode (bs : Bytes) : Option FragmentEntry :=
  match Packed.decode [64, 32, 32] bs with
  | some [s, n, _] => some ⟨s, n⟩
  | _ => none

/-- `struct squashfs_super_block`, with its members in their order. -/
structure SuperBlock where
  sMagic : ℕ
  inodes : ℕ
  bytesUsed2 : ℕ
  uidStart2 : ℕ
  guidStart2 : ℕ
  inodeTableStart2 : ℕ
  directoryTableStart2 : ℕ
  sMajor : ℕ
  sMinor : ℕ
  blockSize1 : ℕ
  blockLog : ℕ
  flags : ℕ
  noUids : ℕ
  noGuids : ℕ
  mkfsTime : ℕ
  rootInode : ℕ
  blockSize : ℕ
  fragments : ℕ
  fragmentTableStart2 : ℕ
  bytesUsed : ℕ
  uidStart : ℕ
  guidStart : ℕ
  inodeTableStart : ℕ
  directoryTableStart : ℕ
  fragmentTableStart : ℕ
  unused : ℕ

def SuperBlock.fields (s : SuperBlock) : List (ℕ × ℕ) :=
  [(32, s.sMagic), (32, s.inodes), (32, s.bytesUsed2), (32, s.uidStart2), (32, s.guidStart2),
    (32, s.inodeTableStart2), (32, s.directoryTableStart2), (16, s.sMajor), (16, s.sMinor),
    (16, s.blockSize1), (16, s.blockLog), (8, s.flags), (8, s.noUids), (8, s.noGuids),
    (32, s.mkfsTime), (64, s.rootInode), (32, s.blockSize), (32, s.fragments),
    (32, s.fragmentTableStart2), (64, s.bytesUsed), (64, s.uidStart), (64, s.guidStart),
    (64, s.inodeTableStart), (64, s.directoryTableStart), (64, s.fragmentTableStart),
    (64, s.unused)]

def SuperBlock.encode (s : SuperBlock) : Bytes := Packed.encode s.fields

def SuperBlock.decode (bs : Bytes) : Option SuperBlock :=
  match Packed.decode [32, 32, 32, 32, 32, 32, 32, 16, 16, 16, 16, 8, 8, 8, 32, 64, 32, 32, 32, 64,
      64, 64, 64, 64, 64, 64] bs with
  | some [a, b, c, d, e, f, g, h, i, j, k, l, m, n, o, p, q, r, s, t, u, v, w, x, y, z] =>
    some ⟨a, b, c, d, e, f, g, h, i, j, k, l, m, n, o, p, q, r, s, t, u, v, w, x, y, z⟩
  | _ => none

/-- `sizeof(squashfs_super_block)` -/
def superSize : ℕ := 119

/-! ## Stored blocks -/

/-- What zlib promises: what it compressed comes back. -/
structure Zlib where
  compress : Bytes → Bytes
  uncompress : Bytes → Option Bytes
  uncompress_compress : ∀ s, uncompress (compress s) = some s
  compress_ne_nil : ∀ s, compress s ≠ []

variable (z : Zlib)

/-- `mangle`: the size that is noted for a block, and its bytes. `bit` says that they were left as
they are, which they are also where compression does not make them less. -/
def mangle (s : Bytes) (uncompressed : Bool) (bit : ℕ) : ℕ × Bytes :=
  if uncompressed ∨ s.length ≤ (z.compress s).length then (s.length ||| 2 ^ bit, s)
  else ((z.compress s).length, z.compress s)

/-- `SQUASHFS_COMPRESSED_BIT` -/
def compressedBit : ℕ := 15

/-- `SQUASHFS_COMPRESSED_BIT_BLOCK` -/
def compressedBitBlock : ℕ := 24

/-- `SQUASHFS_COMPRESSED_SIZE` and `SQUASHFS_COMPRESSED_SIZE_BLOCK` -/
def compressedSize (bit b : ℕ) : ℕ :=
  if b - (b &&& 2 ^ bit) = 0 then 2 ^ bit else b - (b &&& 2 ^ bit)

/-- `SQUASHFS_COMPRESSED` and `SQUASHFS_COMPRESSED_BLOCK` -/
def isCompressed (bit b : ℕ) : Bool := b &&& 2 ^ bit = 0

/-- A metadata block as it is written: its size, a marker byte with `-check_data`, its bytes. -/
def metaBlock (checkData uncompressed : Bool) (s : Bytes) : Bytes :=
  let r := mangle z s uncompressed compressedBit
  Packed.toBytes 2 r.1 ++ (if checkData then [0xff] else []) ++ r.2

end Squashfs
