import Backpack.Squashfs.Unsquashfs

/-!
# Blocks come back

What `mangle` stores is read again as it was, as a block of data or of metadata, wherever it
stands in the image; and so are the structures on disk, each value cut to its field.
-/

namespace Squashfs

open Framed (At)

variable (z : Zlib)

/-! ## Sizes -/

/-- A number below `2 ^ bit` has that bit clear. -/
theorem and_bit_of_lt {bit n : ℕ} (h : n < 2 ^ bit) : n &&& 2 ^ bit = 0 := by
  rw [Nat.and_two_pow, Nat.testBit_eq_false_of_lt h, Bool.toNat_false, Nat.zero_mul]

/-- Setting a clear bit adds its weight. -/
theorem or_bit_of_lt {bit n : ℕ} (h : n < 2 ^ bit) : n ||| 2 ^ bit = n + 2 ^ bit := by
  rw [Nat.or_comm, Nat.add_comm]
  have hadd := Nat.two_pow_add_eq_or_of_lt h 1
  rw [Nat.mul_one] at hadd
  exact hadd.symm

/-- A bit that is set is found set. -/
theorem or_and_bit {bit n : ℕ} : (n ||| 2 ^ bit) &&& 2 ^ bit = 2 ^ bit := by
  rw [Nat.and_two_pow, Nat.testBit_or, Nat.testBit_two_pow_self, Bool.or_true]
  simp

/-- A size without the mark is the size of a compressed block. -/
theorem compressedSize_of_lt {bit n : ℕ} (h : n < 2 ^ bit) (hn : n ≠ 0) :
    compressedSize bit n = n ∧ isCompressed bit n = true := by
  rw [compressedSize, isCompressed, and_bit_of_lt h, Nat.sub_zero, if_neg hn]
  exact ⟨rfl, rfl⟩

/-- A size with the mark is the size of a block stored as it is. -/
theorem compressedSize_or {bit n : ℕ} (h : n < 2 ^ bit) (hn : n ≠ 0) :
    compressedSize bit (n ||| 2 ^ bit) = n ∧ isCompressed bit (n ||| 2 ^ bit) = false := by
  have hpos := Nat.two_pow_pos bit
  rw [compressedSize, isCompressed, or_and_bit, or_bit_of_lt h, Nat.add_sub_cancel, if_neg hn]
  refine ⟨rfl, ?_⟩
  rw [decide_eq_false_iff_not]
  omega

/-! ## Stored blocks -/

/-- What the two members of a stored block say of each other. -/
structure Mangled (s : Bytes) (bit : ℕ) (r : ℕ × Bytes) : Prop where
  size : compressedSize bit r.1 = r.2.length
  ne_nil : r.2 ≠ []
  le : r.2.length ≤ s.length
  lt : r.1 < 2 ^ (bit + 1)
  uncompress : isCompressed bit r.1 = true → z.uncompress r.2 = some s
  eq : isCompressed bit r.1 = false → r.2 = s

/-- `mangle` gives a block that is compressed or stored as it is, and marked so. -/
theorem mangled {s : Bytes} (hs : s ≠ []) {bit : ℕ} (h : s.length < 2 ^ bit) (uncompressed : Bool) :
    Mangled z s bit (mangle z s uncompressed bit) := by
  have hlen : s.length ≠ 0 := fun hnil => hs (List.length_eq_zero_iff.mp hnil)
  have hpow : (2 : ℕ) ^ (bit + 1) = 2 ^ bit + 2 ^ bit := by rw [pow_succ]; omega
  rw [mangle]
  by_cases hraw : uncompressed = true ∨ s.length ≤ (z.compress s).length
  · rw [if_pos hraw]
    have ⟨hsize, hmark⟩ := compressedSize_or h hlen
    refine ⟨hsize, hs, le_refl _, ?_, fun hno => ?_, fun _ => rfl⟩
    · simp only [or_bit_of_lt h]
      omega
    · rw [hmark] at hno
      simp at hno
  · rw [if_neg hraw]
    have hless : (z.compress s).length < s.length := by
      by_contra hge
      exact hraw (.inr (Nat.le_of_not_lt hge))
    have hne : (z.compress s).length ≠ 0 := fun hnil =>
      z.compress_ne_nil s (List.length_eq_zero_iff.mp hnil)
    have ⟨hsize, hmark⟩ := compressedSize_of_lt (Nat.lt_trans hless h) hne
    refine ⟨hsize, z.compress_ne_nil s, Nat.le_of_lt hless, ?_, fun _ => z.uncompress_compress s,
      fun hno => ?_⟩
    · simp only
      omega
    · rw [hmark] at hno
      simp at hno

/-- `read_bytes` gives what stands at the place. -/
theorem readBytes_of_at {image bs : Bytes} {p : ℕ} (h : At image p bs) :
    readBytes image p bs.length = some bs := by
  have hle := h.le
  rw [readBytes, if_neg (by omega), h.take_drop]

variable {z}

/-- A block of data is read as it was. -/
theorem readStored_of_at {image s : Bytes} {bound p : ℕ} {r : ℕ × Bytes}
    (hr : Mangled z s compressedBitBlock r) (hs : s.length ≤ bound) (h : At image p r.2) :
    readStored z image bound p r.1 = some s := by
  have hle := hr.le
  rw [readStored]
  simp only [hr.size]
  rw [if_neg (by omega), readBytes_of_at h]
  simp only [Option.bind_eq_bind, Option.bind_some]
  cases hc : isCompressed compressedBitBlock r.1 with
  | true =>
    rw [if_pos rfl, hr.uncompress hc, Option.bind_some, if_neg (by omega)]
  | false =>
    rw [if_neg (by simp), hr.eq hc]

variable (z)

theorem metaBlock_ne_nil (checkData uncompressed : Bool) (s : Bytes) :
    metaBlock z checkData uncompressed s ≠ [] := by
  intro h
  have hlen := congrArg List.length h
  rw [metaBlock] at hlen
  simp at hlen

/-- A block of metadata is read as it was, and the next one is looked for behind it. -/
theorem readBlock_of_at {image s : Bytes} {checkData uncompressed : Bool} {start : ℕ} (hs : s ≠ [])
    (hl : s.length ≤ metadataSize) (h : At image start (metaBlock z checkData uncompressed s)) :
    readBlock z image checkData start =
      some (s, start + (metaBlock z checkData uncompressed s).length) := by
  have hlt : s.length < 2 ^ compressedBit := by
    have hbits : metadataSize < 2 ^ compressedBit := by decide
    omega
  have hr := mangled z hs hlt uncompressed
  rw [metaBlock] at h ⊢
  set r := mangle z s uncompressed compressedBit with hrdef
  have hoff : ((Packed.toBytes 2 r.1 ++ if checkData = true then [0xff] else []) : Bytes).length =
      blockOffset checkData := by
    cases checkData <;> simp [blockOffset]
  have hhead := readBytes_of_at h.left.left
  have hbody := readBytes_of_at h.right
  rw [Packed.length_toBytes] at hhead
  rw [hoff] at hbody
  have hc : Packed.ofBytes (Packed.toBytes 2 r.1) = r.1 := by
    rw [Packed.ofBytes_toBytes, Nat.mod_eq_of_lt]
    exact hr.lt
  have hle := hr.le
  rw [readBlock, hhead]
  simp only [Option.bind_eq_bind, Option.bind_some, hc, hr.size]
  rw [if_neg (by omega), hbody, List.length_append, hoff, ← Nat.add_assoc]
  simp only [Option.bind_some]
  cases hcomp : isCompressed compressedBit r.1 with
  | true =>
    rw [if_pos rfl, hr.uncompress hcomp, Option.bind_some, if_neg (by omega)]
  | false =>
    rw [if_neg (by simp), hr.eq hcomp]

/-! ## Numbers -/

/-- Numbers written in `n` bytes each are read back. -/
theorem readInts_flatMap (n : ℕ) {ns : List ℕ} (h : ∀ v ∈ ns, v < 256 ^ n) (rest : Bytes) :
    readInts n ns.length (ns.flatMap (Packed.toBytes n) ++ rest) = ns := by
  induction ns with
  | nil => rfl
  | cons v ns ih =>
    have hlen : (Packed.toBytes n v).length = n := Packed.length_toBytes n v
    rw [List.length_cons, readInts, List.flatMap_cons, List.append_assoc]
    rw [List.take_left' hlen, List.drop_left' hlen, Packed.ofBytes_toBytes,
      Nat.mod_eq_of_lt (h v List.mem_cons_self), ih fun w hw => h w (List.mem_cons_of_mem v hw)]

theorem length_flatMap_toBytes (n : ℕ) (ns : List ℕ) :
    (ns.flatMap (Packed.toBytes n)).length = ns.length * n := by
  induction ns with
  | nil => simp
  | cons v ns ih =>
    rw [List.flatMap_cons, List.length_append, Packed.length_toBytes, ih, List.length_cons,
      Nat.succ_mul, Nat.add_comm]

/-! ## Structures on disk -/

/-- The base header, with its values cut. -/
def BaseInodeHeader.cut (b : BaseInodeHeader) : BaseInodeHeader :=
  ⟨b.inodeType % 2 ^ 4, b.mode % 2 ^ 12, b.uid % 2 ^ 8, b.guid % 2 ^ 8, b.mtime % 2 ^ 32,
    b.inodeNumber % 2 ^ 32⟩

@[simp] theorem BaseInodeHeader.width_fields (b : BaseInodeHeader) :
    Packed.width b.fields = 96 := rfl

/-- Whatever follows it in the inode. -/
theorem BaseInodeHeader.decode_encode (b : BaseInodeHeader) (fs : List (ℕ × ℕ)) (rest : Bytes) :
    BaseInodeHeader.decode (Packed.encode (b.fields ++ fs) ++ rest) = some b.cut := by
  have hw : Packed.width b.fields = 8 * 12 := b.width_fields
  rw [Packed.encode_append hw, List.append_assoc, BaseInodeHeader.decode]
  have h := Packed.decode_encode b.fields hw (Packed.encode fs ++ rest)
  rw [show [4, 12, 8, 8, 32, 32] = b.fields.map Prod.fst from rfl, h]
  rfl

/-- A short file inode gives back its fields, cut to their widths. -/
theorem RegInodeHeader.decode_encode (b : BaseInodeHeader) (h : RegInodeHeader) (rest : Bytes) :
    RegInodeHeader.decode (h.encode b ++ rest) = some ⟨h.startBlock % 2 ^ 64, h.fragment % 2 ^ 32,
      h.offset % 2 ^ 32, h.fileSize % 2 ^ 32⟩ := by
  rw [RegInodeHeader.decode, RegInodeHeader.encode]
  have hdecode := Packed.decode_encode (b.fields ++
    [(64, h.startBlock), (32, h.fragment), (32, h.offset), (32, h.fileSize)]) (k := 32) (by simp)
      rest
  rw [show [4, 12, 8, 8, 32, 32, 64, 32, 32, 32] = (b.fields ++
    [(64, h.startBlock), (32, h.fragment), (32, h.offset), (32, h.fileSize)]).map Prod.fst from rfl,
    hdecode]
  rfl

/-- A long file inode keeps all 64 bits of the size. -/
theorem RegInodeHeader.decodeL_encodeL (b : BaseInodeHeader) (nlink : ℕ) (h : RegInodeHeader)
    (rest : Bytes) :
    RegInodeHeader.decodeL (h.encodeL b nlink ++ rest) = some ⟨h.startBlock % 2 ^ 64,
      h.fragment % 2 ^ 32, h.offset % 2 ^ 32, h.fileSize % 2 ^ 64⟩ := by
  rw [RegInodeHeader.decodeL, RegInodeHeader.encodeL]
  have hdecode := Packed.decode_encode (b.fields ++
    [(32, nlink), (64, h.startBlock), (32, h.fragment), (32, h.offset),
      (64, h.fileSize)]) (k := 40) (by simp) rest
  rw [show [4, 12, 8, 8, 32, 32, 32, 64, 32, 32, 64] = (b.fields ++ [(32, nlink),
    (64, h.startBlock), (32, h.fragment), (32, h.offset), (64, h.fileSize)]).map Prod.fst from rfl,
    hdecode]
  rfl

/-- A device inode gives back the lower 16 bits of its number. -/
theorem decodeShort_encodeShort (b : BaseInodeHeader) (nlink v : ℕ) (rest : Bytes) :
    decodeShort (encodeShort b nlink v ++ rest) = some (v % 2 ^ 16) := by
  rw [decodeShort, encodeShort]
  have hdecode := Packed.decode_encode (b.fields ++ [(32, nlink), (16, v)]) (k := 18) (by simp) rest
  rw [show [4, 12, 8, 8, 32, 32, 32, 16] = (b.fields ++ [(32, nlink), (16, v)]).map Prod.fst
    from rfl, hdecode]
  rfl

/-- A short directory inode has 19 bits for the size of its listing. -/
theorem DirInodeHeader.decode_encode (b : BaseInodeHeader) (h : DirInodeHeader) (rest : Bytes) :
    DirInodeHeader.decode (h.encode b ++ rest) = some ⟨h.nlink % 2 ^ 32, h.fileSize % 2 ^ 19,
      h.offset % 2 ^ 13, h.startBlock % 2 ^ 32, h.parentInode % 2 ^ 32⟩ := by
  rw [DirInodeHeader.decode, DirInodeHeader.encode]
  have hdecode := Packed.decode_encode (b.fields ++ [(32, h.nlink), (19, h.fileSize),
    (13, h.offset), (32, h.startBlock), (32, h.parentInode)]) (k := 28) (by simp) rest
  rw [show [4, 12, 8, 8, 32, 32, 32, 19, 13, 32, 32] = (b.fields ++ [(32, h.nlink),
    (19, h.fileSize), (13, h.offset), (32, h.startBlock), (32, h.parentInode)]).map Prod.fst
    from rfl, hdecode]
  rfl

/-- A long directory inode has 27 bits for it. -/
theorem DirInodeHeader.decodeL_encodeL (b : BaseInodeHeader) (iCount : ℕ) (h : DirInodeHeader)
    (rest : Bytes) :
    DirInodeHeader.decodeL (h.encodeL b iCount ++ rest) = some ⟨h.nlink % 2 ^ 32,
      h.fileSize % 2 ^ 27, h.offset % 2 ^ 13, h.startBlock % 2 ^ 32, h.parentInode % 2 ^ 32⟩ := by
  rw [DirInodeHeader.decodeL, DirInodeHeader.encodeL]
  have hdecode := Packed.decode_encode (b.fields ++ [(32, h.nlink), (27, h.fileSize),
    (13, h.offset), (32, h.startBlock), (16, iCount), (32, h.parentInode)]) (k := 31) (by simp) rest
  rw [show [4, 12, 8, 8, 32, 32, 32, 27, 13, 32, 16, 32] = (b.fields ++ [(32, h.nlink),
    (27, h.fileSize), (13, h.offset), (32, h.startBlock), (16, iCount),
    (32, h.parentInode)]).map Prod.fst from rfl, hdecode]
  rfl

/-- A directory header gives back its fields, the count in 8 bits. -/
theorem DirHeader.decode_encode (h : DirHeader) (rest : Bytes) :
    DirHeader.decode (h.encode ++ rest) =
      some ⟨h.count % 2 ^ 8, h.startBlock % 2 ^ 32, h.inodeNumber % 2 ^ 32⟩ := by
  rw [DirHeader.decode, DirHeader.encode]
  have hdecode := Packed.decode_encode
    ([(8, h.count), (32, h.startBlock), (32, h.inodeNumber)]) (k := 9) (by simp) rest
  rw [show [8, 32, 32] =
    [(8, h.count), (32, h.startBlock), (32, h.inodeNumber)].map Prod.fst from rfl, hdecode]
  rfl

/-- An entry gives back its offset, type and length of name. -/
theorem DirEntry.decode_encode (e : DirEntry) (rest : Bytes) :
    DirEntry.decode (e.encode ++ rest) =
      some (e.offset % 2 ^ 13, e.type % 2 ^ 3, e.size % 2 ^ 8) := by
  rw [DirEntry.decode, DirEntry.encode]
  have hdecode := Packed.decode_encode ([(13, e.offset), (3, e.type), (8, e.size),
    (16, (e.inodeNumber % 2 ^ 16).toNat)]) (k := 5) (by simp) rest
  rw [show [13, 3, 8, 16] = [(13, e.offset), (3, e.type), (8, e.size),
    (16, (e.inodeNumber % 2 ^ 16).toNat)].map Prod.fst from rfl, hdecode]
  rfl

/-- An entry of the fragment table gives back place and size. -/
theorem FragmentEntry.decode_encode (e : FragmentEntry) (unset : ℕ) (rest : Bytes) :
    FragmentEntry.decode (e.encode unset ++ rest) =
      some ⟨e.startBlock % 2 ^ 64, e.size % 2 ^ 32⟩ := by
  rw [FragmentEntry.decode, FragmentEntry.encode]
  have hdecode := Packed.decode_encode [(64, e.startBlock), (32, e.size), (32, unset)] (k := 16)
    (by simp) rest
  rw [show [64, 32, 32] = [(64, e.startBlock), (32, e.size), (32, unset)].map Prod.fst from rfl,
    hdecode]
  rfl

/-- The super block, with its values cut. -/
def SuperBlock.cut (s : SuperBlock) : SuperBlock :=
  ⟨s.sMagic % 2 ^ 32, s.inodes % 2 ^ 32, s.bytesUsed2 % 2 ^ 32, s.uidStart2 % 2 ^ 32,
    s.guidStart2 % 2 ^ 32, s.inodeTableStart2 % 2 ^ 32, s.directoryTableStart2 % 2 ^ 32,
    s.sMajor % 2 ^ 16, s.sMinor % 2 ^ 16, s.blockSize1 % 2 ^ 16, s.blockLog % 2 ^ 16,
    s.flags % 2 ^ 8, s.noUids % 2 ^ 8, s.noGuids % 2 ^ 8, s.mkfsTime % 2 ^ 32,
    s.rootInode % 2 ^ 64, s.blockSize % 2 ^ 32, s.fragments % 2 ^ 32,
    s.fragmentTableStart2 % 2 ^ 32, s.bytesUsed % 2 ^ 64, s.uidStart % 2 ^ 64,
    s.guidStart % 2 ^ 64, s.inodeTableStart % 2 ^ 64, s.directoryTableStart % 2 ^ 64,
    s.fragmentTableStart % 2 ^ 64, s.unused % 2 ^ 64⟩

theorem SuperBlock.width_fields (s : SuperBlock) : Packed.width s.fields = 8 * superSize := by
  simp [SuperBlock.fields, superSize]

theorem SuperBlock.length_encode (s : SuperBlock) : s.encode.length = superSize := by
  rw [SuperBlock.encode, Packed.length_encode]
  exact Packed.width_div s.width_fields

/-- The superblock is read back with each field cut to its width. -/
theorem SuperBlock.decode_encode (s : SuperBlock) : SuperBlock.decode s.encode = some s.cut := by
  rw [SuperBlock.decode, SuperBlock.encode]
  have hdecode := Packed.decode_encode (s.fields) s.width_fields []
  rw [List.append_nil] at hdecode
  rw [show [32, 32, 32, 32, 32, 32, 32, 16, 16, 16, 16, 8, 8, 8, 32, 64, 32, 32, 32, 64, 64, 64, 64,
    64, 64, 64] = s.fields.map Prod.fst from rfl, hdecode]
  rfl

end Squashfs
