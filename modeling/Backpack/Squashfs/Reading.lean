import Backpack.Squashfs.Files

/-!
# Files come back

With the tables of an image, the name of a file leads to its inode and from there to the calls
that make the file, or that link it to the name that it has already.
-/

namespace Squashfs

open Framed (At place)

variable (z : Zlib) (o : Options)

/-- What `main` has read, and what was written. -/
structure Readable (l : Laid) (t : Tables) : Prop extends DataRead z o l t where
  inodeTable : t.inodeTable = l.inodes
  inodeHash : ∀ p < l.inodes.length, lookupEntry t.inodeHash
    (t.sBlk.inodeTableStart + (place (frame z o) metadataSize l.inodes p).1) =
      some (p / metadataSize * metadataSize)
  -- the directories may be followed by other blocks
  directoryTable : l.dirs <+: t.directoryTable
  directoryHash : ∀ p < l.dirs.length, lookupEntry t.directoryHash
    (t.sBlk.directoryTableStart + (place (frame z o) metadataSize l.dirs p).1) =
      some (p / metadataSize * metadataSize)
  inodePlace_lt : ∀ p < l.inodes.length,
    (place (frame z o) metadataSize l.inodes p).1 < 2 ^ 32
  dirPlace_lt : ∀ p < l.dirs.length, (place (frame z o) metadataSize l.dirs p).1 < 2 ^ 32
  uidTable : t.uidTable = l.uids
  guidTable : t.guidTable = l.guids
  uids_le : l.uids.length ≤ 255
  guids_le : l.guids.length ≤ 255
  out_lt : l.out.length < 2 ^ 32

variable {z o}

/-! ## Inodes -/

theorem length_base (b : BaseInodeHeader) (fs : List (ℕ × ℕ)) (rest : Bytes) :
    0 < (Packed.encode (b.fields ++ fs) ++ rest).length := by
  have hw : Packed.width b.fields = 8 * 12 := by simp [BaseInodeHeader.fields]
  rw [Packed.encode_append hw, List.length_append, List.length_append, Packed.length_encode,
    Packed.width_div hw]
  omega

/-- The base header of an inode as it is read. -/
def readBase (stat : Stat) (type u g number : ℕ) : BaseInodeHeader :=
  ⟨type % 2 ^ 4, stat.mode % 2 ^ 12, u % 2 ^ 8, g % 2 ^ 8, stat.mtime % 2 ^ 32, number % 2 ^ 32⟩

/-- The base header is read back as it was written, with mode and ids cut. -/
theorem cut_base (stat : Stat) (type u g number : ℕ) :
    BaseInodeHeader.cut ⟨type, stat.mode &&& 0xfff, u, g, stat.mtime, number⟩ =
      readBase stat type u g number := by
  have hmask : stat.mode &&& 0xfff = stat.mode % 2 ^ 12 :=
    Nat.and_two_pow_sub_one_eq_mod stat.mode 12
  rw [BaseInodeHeader.cut, readBase]
  simp only [hmask, Nat.mod_mod]

/-- An inode is found by its two parts. -/
theorem InodeAt.read {l : Laid} {t : Tables} (ht : Readable z o l t) {stat : Stat}
    {type number inode : ℕ} {record : BaseInodeHeader → Bytes}
    (h : InodeAt z o l stat type number record inode)
    (hrec : ∀ b, ∃ fs rest, record b = Packed.encode (b.fields ++ fs) ++ rest) :
    inode / 2 ^ 16 < 2 ^ 32 ∧ inode % 2 ^ 16 < metadataSize ∧
      ∃ u g post bytes, OwnerAt o l stat u g ∧
      lookupEntry t.inodeHash (t.sBlk.inodeTableStart + inode / 2 ^ 16) = some bytes ∧
      t.inodeTable.drop (bytes + inode % 2 ^ 16) =
        record ⟨type, stat.mode &&& 0xfff, u, g, stat.mtime, number⟩ ++ post ∧
      BaseInodeHeader.decode (t.inodeTable.drop (bytes + inode % 2 ^ 16)) =
        some (readBase stat type u g number) := by
  have ⟨p, u, g, hrecord, hinode⟩ := h
  set base : BaseInodeHeader := ⟨type, stat.mode &&& 0xfff, u, g, stat.mtime, number⟩ with hbase
  have ⟨fs, rest, hfs⟩ := hrec base
  have hpos := length_base base fs rest
  rw [← hfs] at hpos
  have hle : p + (record base).length ≤ l.inodes.length := hrecord.at_inodes.le
  have hlt : p < l.inodes.length := by omega
  have ⟨post, hdrop⟩ := hrecord.at_inodes.drop
  have hdiv := placeOf_div z o l.inodes p
  have hmod := placeOf_mod z o l.inodes p
  have hp : p / metadataSize * metadataSize + p % metadataSize = p := by
    rw [Nat.mul_comm]
    exact Nat.div_add_mod p metadataSize
  rw [hinode, hdiv, hmod]
  refine ⟨ht.inodePlace_lt p hlt, Nat.mod_lt _ (by decide), u, g, post,
    p / metadataSize * metadataSize, hrecord.owner, ht.inodeHash p hlt, ?_, ?_⟩
  · rw [ht.inodeTable, hp, hdrop]
  · rw [ht.inodeTable, hp, hdrop, hfs, List.append_assoc, BaseInodeHeader.decode_encode, hbase,
      cut_base]

/-- The reader finds owner and group behind their indices. -/
theorem OwnerAt.read {l : Laid} {t : Tables} (ht : Readable z o l t) {stat : Stat} {u g : ℕ}
    (h : OwnerAt o l stat u g) :
    owner t (u % 2 ^ 8) (g % 2 ^ 8) = some (o.owner stat, o.group stat) := by
  have hu := (List.getElem?_eq_some_iff.mp h.uid).1
  have hu' : u % 2 ^ 8 = u := Nat.mod_eq_of_lt (by have := ht.uids_le; omega)
  rw [owner, hu', ht.uidTable, h.uid]
  simp only [Option.bind_eq_bind, Option.bind_some]
  rcases h.guid with ⟨hg, heq⟩ | hg
  · have hself : squashfsGuids % 2 ^ 8 = squashfsGuids := by decide
    rw [hg, if_pos hself, heq]
  · have hlt := (List.getElem?_eq_some_iff.mp hg).1
    have hle := ht.guids_le
    have hmax : squashfsGuids = 255 := rfl
    have hg' : g % 2 ^ 8 = g := Nat.mod_eq_of_lt (by omega)
    rw [hg', if_neg (by omega), ht.guidTable, hg, Option.bind_some]

/-- `set_attributes` sets what the file had. -/
theorem setAttributes_eq {l : Laid} {t : Tables} (ht : Readable z o l t) {stat : Stat} {u g : ℕ}
    (h : OwnerAt o l stat u g) (path : Bytes) (type number : ℕ) (setMode : Bool) :
    setAttributes t path (readBase stat type u g number).mode (readBase stat type u g number).uid
      (readBase stat type u g number).guid (readBase stat type u g number).mtime setMode =
      some (copyAttributes o path stat setMode) := by
  rw [setAttributes, readBase]
  simp only [h.read ht, Option.bind_eq_bind, Option.bind_some]
  rfl

/-! ## What an inode is made to -/

/-- The size of a stored block, with its mark, fits in four bytes. -/
theorem storedBlocks_lt {content : Bytes} {v : ℕ}
    (h : v ∈ (storedBlocks z o content).map Prod.fst) : v < 256 ^ 4 := by
  have ⟨r, hr, hv⟩ := List.mem_map.mp h
  have ⟨b, hb, hmangle⟩ := List.mem_map.mp hr
  have ⟨hne, hle⟩ := Framed.mem_blocks (blockSize_pos o) (blockCount_le content) hb
  have hlt := (mangled_block z o hne hle o.noD).lt
  have hbits : (2 : ℕ) ^ (compressedBitBlock + 1) < 256 ^ 4 := by decide
  rw [← hv, ← hmangle]
  omega

/-- The content of a regular file, with the values of its inode cut to their fields. -/
theorem FileAt.read {l : Laid} {t : Tables} (ht : Readable z o l t) {content : Bytes} {start : ℕ}
    {blockList : List ℕ} {frag : Fragment} (h : FileAt z o l content start blockList frag)
    {fragment offset fileSize blocks fragBytes startBlock : ℕ}
    (hstart : startBlock = start % 2 ^ 64)
    (hfragment : fragment = frag.index % 2 ^ 32) (hoffset : offset = frag.offset % 2 ^ 32)
    (hsize : fileSize = content.length)
    (hblocks : blocks = if fragment = invalidFrag then
      (fileSize + t.sBlk.blockSize - 1) / 2 ^ t.sBlk.blockLog else fileSize / 2 ^ t.sBlk.blockLog)
    (hbytes : fragBytes = if fragment = invalidFrag then 0 else fileSize % t.sBlk.blockSize)
    (post : Bytes) :
    ¬ (blockList.flatMap (Packed.toBytes 4) ++ post).length < blocks * 4 ∧
      fileContent z t fragment fragBytes offset startBlock
        (readInts 4 blocks (blockList.flatMap (Packed.toBytes 4) ++ post)) = some content := by
  have hdata := h.data.le
  have hout := ht.out_lt
  have hlog : 2 ^ t.sBlk.blockLog = o.blockSize := by
    rw [ht.blockLog]
    rfl
  have hcount : blockList.length = blockCount o content := by
    rw [h.blockList_eq, List.length_map, storedBlocks, List.length_map, Framed.length_blocks]
  have hints : readInts 4 blockList.length (blockList.flatMap (Packed.toBytes 4) ++ post) =
      blockList := by
    apply readInts_flatMap
    intro v hv
    rw [h.blockList_eq] at hv
    exact storedBlocks_lt hv
  have hlist : ¬ (blockList.flatMap (Packed.toBytes 4) ++ post).length < blockList.length * 4 := by
    rw [List.length_append, length_flatMap_toBytes]
    omega
  have hstart' : startBlock = start := by
    rw [hstart]
    exact Nat.mod_eq_of_lt (by omega)
  have hcontent := fileContent_eq ht.toDataRead h
  have hindex := h.index
  rw [ht.blockSize, hlog] at hblocks
  rw [ht.blockSize] at hbytes
  have hinvalid : invalidFrag = 2 ^ 32 - 1 := rfl
  by_cases hend : fileEnd o content = []
  · -- only blocks
    rw [FragmentAt, if_pos hend] at hindex
    have hfrag : fragment = invalidFrag := by
      rw [hfragment, hindex]
      rfl
    rw [if_pos hfrag, hsize, blockCount_of_no_end hend, ← hcount] at hblocks
    rw [if_pos hfrag] at hbytes
    rw [hblocks, hints, hstart', hbytes]
    refine ⟨hlist, ?_⟩
    rw [hend, List.length_nil, fileContent] at hcontent
    rw [fileContent]
    exact hcontent
  · rw [FragmentAt, if_neg hend] at hindex
    obtain ⟨hlt, b, hb, hat⟩ := hindex
    have hne : b ≠ [] := by
      have hle := hat.le
      have hpos : 0 < (fileEnd o content).length := List.length_pos_of_ne_nil hend
      intro hnil
      rw [hnil, List.length_nil] at hle
      omega
    obtain ⟨e, _, he⟩ := ht.frags _ b hb hne
    have hble := he.length_le
    have hbs := (blockSize_bounds o).2
    have hatle := hat.le
    have hfrag : fragment = frag.index := by
      rw [hfragment]
      exact Nat.mod_eq_of_lt (by omega)
    have hoff : offset = frag.offset := by
      rw [hoffset]
      exact Nat.mod_eq_of_lt (by omega)
    obtain ⟨hblockCount, hlength⟩ := blockCount_of_end hend
    rw [if_neg (by omega), hsize, hblockCount, ← hcount] at hblocks
    rw [if_neg (by omega), hsize, hlength] at hbytes
    rw [hblocks, hints, hstart', hbytes, hfrag, hoff]
    exact ⟨hlist, hcontent⟩

theorem drop_encode (b : BaseInodeHeader) (fs : List (ℕ × ℕ)) {k : ℕ}
    (h : Packed.width (b.fields ++ fs) = 8 * k) (rest : Bytes) :
    (Packed.encode (b.fields ++ fs) ++ rest).drop k = rest := by
  apply List.drop_left'
  rw [Packed.length_encode]
  exact Packed.width_div h

/-- The bytes of an inode that the regular file of a node has. -/
theorem createContents_reg {l : Laid} {t : Tables} (ht : Readable z o l t) {node : Node}
    {content : Bytes} (hc : node.contents = .reg content) (hlen : content.length < 2 ^ 31)
    {start : ℕ} {blockList : List ℕ} {frag : Fragment}
    (h : FileAt z o l content start blockList frag) {type u g number : ℕ} {b : BaseInodeHeader}
    {header : Bytes} (howner : OwnerAt o l node.stat u g)
    (htype : (type = fileType ∧ content.length < 2 ^ 30 - 1 ∧ header =
        RegInodeHeader.encode b ⟨start, frag.index, frag.offset, content.length⟩) ∨
      (type = lregType ∧ header = RegInodeHeader.encodeL b node.nlink
        ⟨start, frag.index, frag.offset, content.length⟩)) (path post : Bytes) :
    createContents z t path (readBase node.stat type u g number)
      ((header ++ blockList.flatMap (Packed.toBytes 4)) ++ post) = some (copyFile o path node) := by
  rw [List.append_assoc, createContents]
  simp only [setAttributes_eq ht howner]
  rw [copyFile, hc]
  rcases htype with ⟨htype, hsmall, hheader⟩ | ⟨htype, hheader⟩
  · have hdrop := drop_encode b [(64, start), (32, frag.index), (32, frag.offset),
      (32, content.length)] (k := 32) (by simp [BaseInodeHeader.fields])
      (blockList.flatMap (Packed.toBytes 4) ++ post)
    have hsize : content.length % 2 ^ 32 = content.length := Nat.mod_eq_of_lt (by omega)
    obtain ⟨hlist, hcontent⟩ := h.read ht rfl rfl rfl hsize rfl rfl post
    rw [if_pos (by rw [htype]; rfl), hheader, RegInodeHeader.decode_encode]
    simp only [Option.bind_eq_bind, Option.bind_some]
    rw [RegInodeHeader.encode]
    simp only [hdrop]
    rw [if_neg hlist, hcontent]
    rfl
  · have hdrop := drop_encode b [(32, node.nlink), (64, start), (32, frag.index),
      (32, frag.offset), (64, content.length)] (k := 40) (by simp [BaseInodeHeader.fields])
      (blockList.flatMap (Packed.toBytes 4) ++ post)
    have hsize : content.length % 2 ^ 64 = content.length := Nat.mod_eq_of_lt (by omega)
    obtain ⟨hlist, hcontent⟩ := h.read ht rfl rfl rfl hsize rfl rfl post
    have hne : ¬ (readBase node.stat type u g number).inodeType = fileType := by
      show ¬ type % 2 ^ 4 = fileType
      rw [htype]
      decide
    rw [if_neg hne, if_pos (by rw [htype]; rfl), hheader, RegInodeHeader.decodeL_encodeL]
    simp only [Option.bind_eq_bind, Option.bind_some]
    rw [RegInodeHeader.encodeL]
    simp only [hdrop]
    rw [if_neg hlist, hcontent]
    rfl

/-- A symbolic link is made with its target. -/
theorem createContents_symlink {l : Laid} {t : Tables} (ht : Readable z o l t) {node : Node}
    {target : Bytes} (hc : node.contents = .symlink target) (hlen : target.length < 2 ^ 16)
    (hzero : 0 ∉ target) {u g number : ℕ} (b : BaseInodeHeader)
    (howner : OwnerAt o l node.stat u g) (path post : Bytes) :
    createContents z t path (readBase node.stat symlinkType u g number)
      ((encodeShort b node.nlink target.length ++ target) ++ post) =
        some (copyFile o path node) := by
  have hsize : target.length % 2 ^ 16 = target.length := Nat.mod_eq_of_lt hlen
  have hheader : (encodeShort b node.nlink target.length).length = 18 := by
    rw [encodeShort, Packed.length_encode]
    exact Packed.width_div (by simp [BaseInodeHeader.fields])
  have hat : At ((encodeShort b node.nlink target.length ++ target) ++ post) 18 target :=
    ⟨encodeShort b node.nlink target.length, post, rfl, hheader⟩
  have hread := readBytes_of_at hat
  rw [List.append_assoc] at hread ⊢
  have htype : (readBase node.stat symlinkType u g number).inodeType = symlinkType := rfl
  rw [createContents]
  simp only [htype]
  rw [if_neg (by decide : ¬ symlinkType = fileType), if_neg (by decide : ¬ symlinkType = lregType),
    if_pos trivial, decodeShort_encodeShort, hsize]
  have howner' := howner.read ht
  simp only [Option.bind_eq_bind, Option.bind_some, hread]
  simp only [readBase, howner', Option.bind_some]
  rw [copyFile, hc, cString_of_no_zero hzero]

/-- A device node is made with its numbers, cut to eight bits each. -/
theorem createContents_device {l : Laid} {t : Tables} (ht : Readable z o l t) {node : Node}
    {type major minor u g number : ℕ} (htype : type = blkdevType ∨ type = chrdevType)
    (b : BaseInodeHeader) (howner : OwnerAt o l node.stat u g) (path post : Bytes) :
    createContents z t path (readBase node.stat type u g number)
      (encodeShort b node.nlink (major * 2 ^ 8 + minor % 2 ^ 8) ++ post) =
        some (copyDevice o path node.stat type major minor) := by
  have hmajor : (major * 2 ^ 8 + minor % 2 ^ 8) % 2 ^ 16 / 2 ^ 8 % 2 ^ 8 = major % 2 ^ 8 := by omega
  have hminor : (major * 2 ^ 8 + minor % 2 ^ 8) % 2 ^ 16 % 2 ^ 8 = minor % 2 ^ 8 := by omega
  rw [createContents]
  simp only [setAttributes_eq ht howner, decodeShort_encodeShort, Option.bind_eq_bind,
    Option.bind_some, hmajor, hminor]
  rw [copyDevice]
  rcases htype with htype | htype
  · rw [htype]
    rfl
  · rw [htype]
    rfl

/-- A fifo is made. -/
theorem createContents_fifo {l : Laid} {t : Tables} (ht : Readable z o l t) {node : Node}
    (hc : node.contents = .fifo) {u g number : ℕ} (howner : OwnerAt o l node.stat u g)
    (path bs : Bytes) :
    createContents z t path (readBase node.stat fifoType u g number) bs =
      some (copyFile o path node) := by
  rw [createContents]
  simp only [setAttributes_eq ht howner, Option.bind_eq_bind, Option.bind_some]
  rw [copyFile, hc]
  rfl

/-- Nothing is made for a socket. -/
theorem createContents_socket (t : Tables) {node : Node} (hc : node.contents = .socket)
    (u g number : ℕ) (path bs : Bytes) :
    createContents z t path (readBase node.stat socketType u g number) bs =
      some (copyFile o path node) := by
  rw [createContents, copyFile, hc]
  rfl

/-! ## `create_inode` -/

/-- The types for which `create_inode` has a case. -/
def IsFile (type : ℕ) : Prop :=
  ¬ (type = 0 ∨ type = dirType ∨ type = ldirType ∨ lregType < type)

/-- The types of files, short and long, are told from those of directories. -/
theorem isFile_readBase {stat : Stat} {type u g number : ℕ}
    (h : fileType ≤ type ∧ type ≤ lregType ∧ type ≠ ldirType) :
    IsFile (readBase stat type u g number).inodeType := by
  have ⟨hlow, hhigh, hdir⟩ := h
  show IsFile (type % 2 ^ 4)
  have hfile : fileType = 2 := rfl
  have hlreg : lregType = 9 := rfl
  have hdirType : dirType = 1 := rfl
  unfold IsFile
  omega

/-- Limits of the contents of a file. -/
def Contents.Fits : Contents → Prop
  | .reg content => content.length < 2 ^ 31
  | .symlink target => target.length < 2 ^ 16 ∧ 0 ∉ target
  | _ => True

/-- The inode of a file is found, and it makes the file. -/
theorem NodeAt.read {l : Laid} {t : Tables} (ht : Readable z o l t) {node : Node}
    (hfits : node.contents.Fits) {number inode type : ℕ}
    (h : NodeAt z o l node number inode type) :
    inode / 2 ^ 16 < 2 ^ 32 ∧ inode % 2 ^ 16 < metadataSize ∧ type ≠ dirType ∧ type < 2 ^ 3 ∧
      ∃ bytes b, lookupEntry t.inodeHash (t.sBlk.inodeTableStart + inode / 2 ^ 16) = some bytes ∧
      BaseInodeHeader.decode (t.inodeTable.drop (bytes + inode % 2 ^ 16)) = some b ∧
      b.inodeNumber = number % 2 ^ 32 ∧
      IsFile b.inodeType ∧
      ∀ path, createContents z t path b (t.inodeTable.drop (bytes + inode % 2 ^ 16)) =
        some (copyFile o path node) := by
  unfold NodeAt at h
  cases hc : node.contents with
  | reg content =>
    rw [hc] at h hfits
    obtain ⟨rfl, start, blockList, frag, hfile, hreg⟩ := h
    unfold RegAt at hreg
    simp only at hreg
    by_cases hsmall : node.nlink = 1 ∧ content.length < 2 ^ 30 - 1
    · rw [if_pos hsmall] at hreg
      have ⟨hblock, hoffset, u, g, post, bytes, howner, hlookup, hdrop, hbase⟩ :=
        hreg.read ht fun b => ⟨_, _, rfl⟩
      refine ⟨hblock, hoffset, by decide, by decide, bytes, _, hlookup, hbase, rfl,
        isFile_readBase (by decide), fun path => ?_⟩
      rw [hdrop]
      exact createContents_reg ht hc hfits hfile howner (.inl ⟨rfl, hsmall.2, rfl⟩) path post
    · rw [if_neg hsmall] at hreg
      have ⟨hblock, hoffset, u, g, post, bytes, howner, hlookup, hdrop, hbase⟩ :=
        hreg.read ht fun b => ⟨_, _, rfl⟩
      refine ⟨hblock, hoffset, by decide, by decide, bytes, _, hlookup, hbase, rfl,
        isFile_readBase (by decide), fun path => ?_⟩
      rw [hdrop]
      exact createContents_reg ht hc hfits hfile howner (.inr ⟨rfl, rfl⟩) path post
  | symlink target =>
    rw [hc] at h hfits
    obtain ⟨rfl, h⟩ := h
    have ⟨hblock, hoffset, u, g, post, bytes, howner, hlookup, hdrop, hbase⟩ :=
      h.read ht fun b => ⟨_, _, rfl⟩
    refine ⟨hblock, hoffset, by decide, by decide, bytes, _, hlookup, hbase, rfl,
      isFile_readBase (by decide), fun path => ?_⟩
    rw [hdrop]
    exact createContents_symlink ht hc hfits.1 hfits.2 _ howner path post
  | chrdev major minor =>
    rw [hc] at h
    obtain ⟨rfl, h⟩ := h
    have ⟨hblock, hoffset, u, g, post, bytes, howner, hlookup, hdrop, hbase⟩ :=
      h.read ht fun b => ⟨_, [], (List.append_nil _).symm⟩
    refine ⟨hblock, hoffset, by decide, by decide, bytes, _, hlookup, hbase, rfl,
      isFile_readBase (by decide), fun path => ?_⟩
    rw [hdrop, createContents_device ht (.inr rfl) _ howner path post, copyFile, hc]
  | blkdev major minor =>
    rw [hc] at h
    obtain ⟨rfl, h⟩ := h
    have ⟨hblock, hoffset, u, g, post, bytes, howner, hlookup, hdrop, hbase⟩ :=
      h.read ht fun b => ⟨_, [], (List.append_nil _).symm⟩
    refine ⟨hblock, hoffset, by decide, by decide, bytes, _, hlookup, hbase, rfl,
      isFile_readBase (by decide), fun path => ?_⟩
    rw [hdrop, createContents_device ht (.inl rfl) _ howner path post, copyFile, hc]
  | fifo =>
    rw [hc] at h
    obtain ⟨rfl, h⟩ := h
    have ⟨hblock, hoffset, u, g, post, bytes, howner, hlookup, hdrop, hbase⟩ :=
      h.read ht fun b => ⟨_, [], (List.append_nil _).symm⟩
    exact ⟨hblock, hoffset, by decide, by decide, bytes, _, hlookup, hbase, rfl,
      isFile_readBase (by decide), fun path => createContents_fifo ht hc howner path _⟩
  | socket =>
    rw [hc] at h
    obtain ⟨rfl, h⟩ := h
    have ⟨hblock, hoffset, u, g, post, bytes, howner, hlookup, hdrop, hbase⟩ :=
      h.read ht fun b => ⟨_, [], (List.append_nil _).symm⟩
    exact ⟨hblock, hoffset, by decide, by decide, bytes, _, hlookup, hbase, rfl,
      isFile_readBase (by decide), fun path => createContents_socket t hc u g number path _⟩

/-- The files that were made, by their inode numbers. -/
def created (dirInodeNo : ℕ) (seen : Seen) : Seen := seen.map fun s => (s.1 + dirInodeNo, s.2)

/-- The reader and the copier have made the same files, the reader by inode number. -/
theorem lookup_created (dirInodeNo k : ℕ) (seen : Seen) :
    (created dirInodeNo seen).lookup (k + dirInodeNo) = seen.lookup k := by
  induction seen with
  | nil => rfl
  | cons s seen ih =>
    have hsame : (k + dirInodeNo == s.1 + dirInodeNo) = (k == s.1) := by
      rw [Bool.eq_iff_iff, beq_iff_eq, beq_iff_eq]
      omega
    show List.lookup _ ((s.1 + dirInodeNo, s.2) :: created dirInodeNo seen) =
      List.lookup k (s :: seen)
    rw [List.lookup_cons, List.lookup_cons, hsame, ih]

/-- A name in the image makes what its file was, or links it. -/
theorem unsquashInode_eq {l : Laid} {t : Tables} (ht : Readable z o l t) {nodes : List Node}
    {dirInodeNo : ℕ} (hcount : t.sBlk.inodes + 1 = dirInodeNo + nodes.length)
    (hlt : dirInodeNo + nodes.length < 2 ^ 32) (hpos : 0 < dirInodeNo)
    {k : ℕ} {node : Node} (hk : nodes[k]? = some node) (hfits : node.contents.Fits)
    {inode type : ℕ} (h : NodeAt z o l node (k + dirInodeNo) inode type) (path : Bytes)
    (seen : Seen) :
    unsquashInode z t path (inode / 2 ^ 16) (inode % 2 ^ 16) (created dirInodeNo seen) =
      some ((copyName o nodes path k seen).1,
        created dirInodeNo (copyName o nodes path k seen).2) := by
  have ⟨_, _, _, _, bytes, b, hlookup, hbase, hinodeNumber, hfile, hcreate⟩ := h.read ht hfits
  have hklt := (List.getElem?_eq_some_iff.mp hk).1
  have hnumber : b.inodeNumber = k + dirInodeNo := by
    rw [hinodeNumber]
    exact Nat.mod_eq_of_lt (by omega)
  rw [unsquashInode, hlookup]
  simp only [Option.bind_eq_bind, hbase, Option.bind_some, hnumber, hcreate]
  rw [if_neg (by omega), lookup_created, copyName]
  cases hseen : seen.lookup k with
  | some old => rfl
  | none =>
    simp only [hk]
    rw [if_neg hfile]
    rfl

end Squashfs
