import Backpack.Squashfs.Trees

/-!
# An image comes back

The tables that `main` of `mksquashfs` writes behind the data are the tables that `unsquashfs`
reads, so a directory that was packed is copied.
-/

namespace Squashfs

open Framed (At place)

variable {z : Zlib} {o : Options} {sc : Scan}

/-! ## The bytes of the image -/

/-- Behind the super block, which is written last, the image is what was written. -/
theorem at_image {super out pad bs : Bytes} {p : ℕ} (hsuper : super.length = superSize)
    (hp : superSize ≤ p) (h : At out p bs) : At (super ++ out.drop superSize ++ pad) p bs := by
  obtain ⟨pre, post, hsplit, hpre⟩ := h
  have hle : superSize ≤ pre.length := by omega
  refine ⟨super ++ pre.drop superSize, post ++ pad, ?_, ?_⟩
  · rw [hsplit, List.append_assoc pre, List.drop_append_of_le_length hle]
    simp only [List.append_assoc]
  · rw [List.length_append, List.length_drop]
    omega

/-! ## Blocks of metadata -/

/-- A block of metadata with its bytes in the image. -/
def IsFrame (z : Zlib) (o : Options) (f : Bytes × Bytes) : Prop :=
  f.1 ≠ [] ∧ f.1.length ≤ metadataSize ∧ ∃ u, f.2 = metaBlock z o.checkData u f.1

/-- A metadata block takes room in the image. -/
theorem IsFrame.ne_nil {f : Bytes × Bytes} (h : IsFrame z o f) : f.2 ≠ [] := by
  obtain ⟨_, _, u, hblock⟩ := h
  rw [hblock]
  exact metaBlock_ne_nil z o.checkData u f.1

/-- `read_block` gives back the bytes of a metadata block and the place after it. -/
theorem IsFrame.readBlock {f : Bytes × Bytes} (h : IsFrame z o f) {image : Bytes} {p : ℕ}
    (hat : At image p f.2) : readBlock z image o.checkData p = some (f.1, p + f.2.length) := by
  obtain ⟨hne, hle, u, hblock⟩ := h
  rw [hblock] at hat ⊢
  exact readBlock_of_at z hne hle hat

/-- The blocks of a stream, with their frames. -/
def framed (frame : Bytes → Bytes) (s : Bytes) : List (Bytes × Bytes) :=
  (Framed.blocks metadataSize (Framed.count metadataSize s.length) s).map fun b => (b, frame b)

/-- What `write_inodes` and `write_directories` cut off is a run of metadata blocks. -/
theorem framed_isFrame (u : Bool) (s : Bytes) :
    ∀ f ∈ framed (metaBlock z o.checkData u) s, IsFrame z o f := by
  intro f hf
  obtain ⟨b, hb, hpair⟩ := List.mem_map.mp hf
  obtain ⟨hne, hle⟩ := Framed.mem_blocks (by decide) (Nat.le_refl _) hb
  rw [← hpair]
  exact ⟨hne, hle, u, rfl⟩

/-- On disk, a framed stream is its blocks one after another. -/
theorem framed_snd (frame : Bytes → Bytes) (s : Bytes) : (framed frame s).flatMap Prod.snd =
    (Framed.blocks metadataSize (Framed.count metadataSize s.length) s).flatMap frame := by
  rw [framed, List.flatMap_map]

/-- Read back, a framed stream is the stream. -/
theorem framed_fst (frame : Bytes → Bytes) (s : Bytes) :
    (framed frame s).flatMap Prod.fst = s := by
  have hle := Framed.le_count_mul (by decide : 0 < metadataSize) s.length
  have hflatten := Framed.flatten_blocks metadataSize (Framed.count metadataSize s.length) s
  rw [List.take_of_length_le hle] at hflatten
  rw [framed, List.flatMap_map, List.flatMap_id']
  exact hflatten

/-- There are no more blocks than bytes, which bounds the reader's loop. -/
theorem length_le_flatMap {fs : List (Bytes × Bytes)} (h : ∀ f ∈ fs, f.2 ≠ []) :
    fs.length ≤ (fs.flatMap Prod.snd).length := by
  induction fs with
  | nil => exact Nat.zero_le _
  | cons f fs ih =>
    have hpos : 0 < f.2.length := List.length_pos_of_ne_nil (h f List.mem_cons_self)
    have hle := ih fun g hg => h g (List.mem_cons_of_mem f hg)
    rw [List.flatMap_cons, List.length_append, List.length_cons]
    omega

/-- A table is read whole, with the place of each block. -/
theorem readTable_eq {image : Bytes} {fs : List (Bytes × Bytes)}
    (hfs : ∀ f ∈ fs, IsFrame z o f) {start : ℕ} (hat : At image start (fs.flatMap Prod.snd)) :
    readTable z image o.checkData start (start + (fs.flatMap Prod.snd).length) =
      some (fs.flatMap Prod.fst, (Framed.entries start 0 fs).reverse) := by
  have hpos : ∀ f ∈ fs, f.2 ≠ [] := fun f hf => (hfs f hf).ne_nil
  have hlen := length_le_flatMap hpos
  have hread : ∀ j f, fs[j]? = some f →
      readBlock z image o.checkData (start + ((fs.take j).flatMap Prod.snd).length) =
        some (f.1, start + ((fs.take j).flatMap Prod.snd).length + f.2.length) := by
    intro j f hf
    obtain ⟨hj, hget⟩ := List.getElem?_eq_some_iff.mp hf
    have hsplit : fs.take j ++ f :: fs.drop (j + 1) = fs := by
      rw [← hget, ← List.drop_eq_getElem_cons hj, List.take_append_drop]
    rw [← hsplit, List.flatMap_append, List.flatMap_cons] at hat
    exact (hfs f (List.mem_of_getElem? hf)).readBlock hat.right.left
  have h : Framed.readBlocks (readBlock z image o.checkData)
      (start + (fs.flatMap Prod.snd).length) (start + (fs.flatMap Prod.snd).length - start + 1)
      start [] [] = some ([] ++ fs.flatMap Prod.fst, (Framed.entries start 0 fs).reverse ++ []) :=
    Framed.readBlocks_eq hpos hread rfl (by omega)
  rw [List.nil_append, List.append_nil] at h
  exact h

/-- There is never room for more than two blocks too many. -/
theorem tableSize_le {fs : List (Bytes × Bytes)} {start off size : ℕ}
    (hsize : size ≤ off + 2 * metadataSize) : tableSize size (Framed.entries start off fs) ≤
      off + (fs.flatMap Prod.fst).length + 2 * metadataSize := by
  induction fs generalizing start off size with
  | nil => simpa [Framed.entries, tableSize] using hsize
  | cons f fs ih =>
    have hnext := @ih (start + f.2.length) (off + f.1.length)
      (if size - off < metadataSize then size + metadataSize else size) (by split_ifs <;> omega)
    rw [Framed.entries, tableSize, List.flatMap_cons, List.length_append]
    simp only at hnext ⊢
    omega

/-- A table that has room in an `int`. -/
theorem uncompressTable_eq {image : Bytes} {fs : List (Bytes × Bytes)}
    (hfs : ∀ f ∈ fs, IsFrame z o f) {start : ℕ} (hat : At image start (fs.flatMap Prod.snd))
    (hsmall : (fs.flatMap Prod.fst).length + 2 * metadataSize < 2 ^ 31) :
    uncompressTable z image o.checkData start (start + (fs.flatMap Prod.snd).length) =
      some (fs.flatMap Prod.fst, (Framed.entries start 0 fs).reverse) := by
  have hsize := @tableSize_le fs start 0 0 (Nat.zero_le _)
  rw [uncompressTable, readTable_eq hfs hat, Option.bind_eq_bind, Option.bind_some,
    List.reverse_reverse, if_neg (by omega)]

/-- The place of a block is a place in the table. -/
theorem place_le (frame : Bytes → Bytes) (s : Bytes) {p : ℕ} (hp : p < s.length) :
    (place frame metadataSize s p).1 ≤ ((framed frame s).flatMap Prod.snd).length := by
  have hlt := Framed.div_lt_count (by decide : 0 < metadataSize) hp
  have htake : (Framed.blocks metadataSize (Framed.count metadataSize s.length) s).take
      (p / metadataSize) = Framed.blocks metadataSize (p / metadataSize) s :=
    Framed.take_blocks (Nat.le_of_lt hlt) s
  rw [framed_snd, place, ← htake]
  have hprefix : ((Framed.blocks metadataSize (Framed.count metadataSize s.length) s).take
      (p / metadataSize)).flatMap frame <+:
        (Framed.blocks metadataSize (Framed.count metadataSize s.length) s).flatMap frame := by
    obtain ⟨u, hu⟩ := List.take_prefix (p / metadataSize)
      (Framed.blocks metadataSize (Framed.count metadataSize s.length) s)
    refine ⟨u.flatMap frame, ?_⟩
    rw [← List.flatMap_append, hu]
  exact hprefix.length_le

/-- Every place in a stream is found in the table, whatever follows it there. -/
theorem lookupEntry_eq {frame : Bytes → Bytes} (hframe : ∀ b, frame b ≠ []) (s : Bytes)
    {rest : List (Bytes × Bytes)} (hrest : ∀ f ∈ rest, f.2 ≠ []) {start : ℕ}
    (hlt : start + ((framed frame s ++ rest).flatMap Prod.snd).length < 2 ^ 32) {p : ℕ}
    (hp : p < s.length) :
    lookupEntry (Framed.entries start 0 (framed frame s ++ rest)).reverse
      (start + (place frame metadataSize s p).1) = some (p / metadataSize * metadataSize) := by
  have hplace := place_le frame s hp
  rw [List.flatMap_append, List.length_append] at hlt
  have h := Framed.find?_place (by decide : 0 < metadataSize) hframe hrest hp start
    (q := fun e => e.1 % 2 ^ 32 = (start + (place frame metadataSize s p).1) % 2 ^ 32) (by
      intro e he
      obtain ⟨_, hle⟩ := Framed.le_of_mem_entries he
      have hlt' : e.1 < 2 ^ 32 := by
        change e.1 ≤ start + ((framed frame s ++ rest).flatMap Prod.snd).length at hle
        rw [List.flatMap_append, List.length_append] at hle
        omega
      rw [decide_eq_true_iff, Nat.mod_eq_of_lt hlt', Nat.mod_eq_of_lt (by omega)])
  rw [lookupEntry]
  exact congrArg (Option.map Prod.snd) h

/-! ## The table of fragments -/

/-- `write_fragment_table` writes the blocks one after the other, and keeps their places. -/
theorem foldl_framed (frame : Bytes → Bytes) (bs : List Bytes) (out : Bytes) (index : List ℕ)
    (off : ℕ) :
    bs.foldl (fun r b => (r.1 ++ frame b, r.2 ++ [r.1.length])) (out, index) =
      (out ++ bs.flatMap frame, index ++
        (Framed.entries out.length off (bs.map fun b => (b, frame b))).map Prod.fst) := by
  induction bs generalizing out index off with
  | nil => simp [Framed.entries]
  | cons b bs ih =>
    rw [List.foldl_cons, ih (out ++ frame b) (index ++ [out.length]) (off + b.length),
      List.length_append, List.map_cons, Framed.entries, List.map_cons, List.flatMap_cons,
      List.append_assoc, List.append_assoc]
    rfl

/-- The reader finds the blocks of the fragment table behind the index of their places. -/
theorem readFragmentBlocks_eq {image : Bytes} {fs : List (Bytes × Bytes)}
    (hfs : ∀ f ∈ fs, IsFrame z o f) {start : ℕ} (hat : At image start (fs.flatMap Prod.snd))
    (off : ℕ) :
    readFragmentBlocks z image o.checkData ((Framed.entries start off fs).map Prod.fst) =
      some (fs.flatMap Prod.fst) := by
  induction fs generalizing start off with
  | nil => rfl
  | cons f fs ih =>
    rw [List.flatMap_cons] at hat
    have hfirst := (hfs f List.mem_cons_self).readBlock hat.left
    have hrest := ih (fun g hg => hfs g (List.mem_cons_of_mem f hg)) hat.right (off + f.1.length)
    rw [Framed.entries, List.map_cons, readFragmentBlocks, hfirst]
    simp only [Option.bind_eq_bind, Option.bind_some, hrest, List.flatMap_cons]

theorem FragmentEntry.length_encode (e : FragmentEntry) (unset : ℕ) :
    (e.encode unset).length = 16 := by
  rw [FragmentEntry.encode, Packed.length_encode]
  exact Packed.width_div (by simp)

/-- An entry of the fragment table has 16 bytes, whatever its unset field holds. -/
theorem length_encodeTable (unset : ℕ → ℕ) (table : List FragmentEntry) (k : ℕ) :
    ((table.zipIdx k).flatMap fun e => e.1.encode (unset e.2)).length = table.length * 16 := by
  induction table generalizing k with
  | nil => simp
  | cons e table ih =>
    rw [List.zipIdx_cons, List.flatMap_cons, List.length_append, FragmentEntry.length_encode, ih,
      List.length_cons]
    omega

/-- The fragment table is read back entry by entry. -/
theorem readEntries_eq (unset : ℕ → ℕ) {table : List FragmentEntry}
    (h : ∀ e ∈ table, e.startBlock < 2 ^ 64 ∧ e.size < 2 ^ 32) (k : ℕ) :
    readEntries table.length ((table.zipIdx k).flatMap fun e => e.1.encode (unset e.2)) =
      some table := by
  induction table generalizing k with
  | nil => rfl
  | cons e table ih =>
    obtain ⟨hstart, hsize⟩ := h e List.mem_cons_self
    have hrest := ih (fun f hf => h f (List.mem_cons_of_mem e hf)) (k + 1)
    rw [List.zipIdx_cons, List.flatMap_cons, List.length_cons, readEntries,
      FragmentEntry.decode_encode, List.drop_left' (FragmentEntry.length_encode e _),
      Nat.mod_eq_of_lt hstart, Nat.mod_eq_of_lt hsize]
    simp only [Option.bind_eq_bind, Option.bind_some, hrest]

/-- The last block of a stream that does not fill its blocks has the rest of its bytes. -/
theorem last_block {s : Bytes} (hs : s.length % metadataSize ≠ 0) :
    (Framed.blocks metadataSize (Framed.count metadataSize s.length) s).mapIdx (fun i b =>
      if i = Framed.count metadataSize s.length - 1 then b.take (s.length % metadataSize) else b) =
        Framed.blocks metadataSize (Framed.count metadataSize s.length) s := by
  have hsplit := Nat.div_add_mod s.length metadataSize
  set q := s.length / metadataSize with hq
  have hcount : Framed.count metadataSize s.length = q + 1 := by
    rw [Framed.count, Nat.div_eq_of_lt_le]
    · rw [Nat.succ_mul, Nat.mul_comm]
      omega
    · have hlt := Nat.mod_lt s.length (by decide : 0 < metadataSize)
      rw [Nat.succ_mul, Nat.succ_mul, Nat.mul_comm]
      omega
  have hrest : (s.drop (q * metadataSize)).length = s.length % metadataSize := by
    rw [List.length_drop, Nat.mul_comm]
    omega
  have hlt := Nat.mod_lt s.length (by decide : 0 < metadataSize)
  rw [hcount, Framed.blocks_succ, List.mapIdx_append, Framed.length_blocks, Nat.add_sub_cancel]
  congr 1
  · apply List.ext_getElem (by simp)
    intro i hi hi'
    rw [Framed.length_blocks] at hi'
    rw [List.getElem_mapIdx, if_neg (by omega)]
  · simp only [List.mapIdx_cons, Nat.zero_add, if_true, List.mapIdx_nil]
    rw [List.take_take, Nat.min_eq_left hlt.le, ← hrest, List.take_length,
      List.take_of_length_le (by omega)]

/-- What `write_fragment_table` leaves. -/
theorem writeFragmentTable_spec {mem : Memory} {table : List FragmentEntry} {out out' : Bytes}
    {start : ℕ} (hfull : table = [] ∨ table.length % 512 ≠ 0)
    (he : writeFragmentTable z o mem table out = (start, out')) :
    ∃ fs, (∀ f ∈ fs, IsFrame z o f) ∧
      fs.flatMap Prod.fst = (table.zipIdx.flatMap fun e => e.1.encode (mem.unused e.2)) ∧
      fs.length = Framed.count metadataSize (table.length * 16) ∧
      start = out.length + (fs.flatMap Prod.snd).length ∧
      out' = out ++ fs.flatMap Prod.snd ++
        ((Framed.entries out.length 0 fs).map Prod.fst).flatMap (Packed.toBytes 8) := by
  unfold writeFragmentTable at he
  simp only at he
  set buffer := table.zipIdx.flatMap fun e => e.1.encode (mem.unused e.2) with hbuffer
  have hlen : buffer.length = table.length * 16 := length_encodeTable mem.unused table 0
  have hblocks : (Framed.blocks metadataSize (Framed.count metadataSize buffer.length)
      buffer).mapIdx (fun i b => if i = Framed.count metadataSize buffer.length - 1 then
        b.take (buffer.length % metadataSize) else b) =
      Framed.blocks metadataSize (Framed.count metadataSize buffer.length) buffer := by
    rcases hfull with hnil | hfull
    · have hempty : Framed.blocks metadataSize (Framed.count metadataSize buffer.length)
          buffer = [] := by
        rw [hlen, hnil]
        rfl
      rw [hempty]
      rfl
    · refine last_block ?_
      rw [hlen, metadataSize]
      omega
  -- so that none of them is empty
  have hframe : ∀ (r : Bytes × List ℕ), ∀ b ∈ Framed.blocks metadataSize
      (Framed.count metadataSize buffer.length) buffer,
      (r.1 ++ fragmentBlock z o mem b, r.2 ++ [r.1.length]) =
        (r.1 ++ metaBlock z o.checkData o.noF b, r.2 ++ [r.1.length]) := by
    intro r b hb
    have hne := (Framed.mem_blocks (by decide) (Nat.le_refl _) hb).1
    rw [fragmentBlock, if_neg hne, List.append_nil]
  rw [hblocks, List.foldl_ext _ _ _ hframe,
    foldl_framed (metaBlock z o.checkData o.noF) _ out [] 0] at he
  obtain ⟨hstart, hout⟩ := Prod.mk.inj he
  refine ⟨framed (metaBlock z o.checkData o.noF) buffer, framed_isFrame o.noF buffer,
    framed_fst _ buffer, ?_, ?_, ?_⟩
  · rw [framed, List.length_map, Framed.length_blocks, hlen]
  · rw [← hstart, framed_snd, List.length_append]
  · rw [← hout, framed_snd, framed, List.nil_append]

theorem length_entries (fs : List (Bytes × Bytes)) (start off : ℕ) :
    (Framed.entries start off fs).length = fs.length := by
  induction fs generalizing start off with
  | nil => rfl
  | cons f fs ih => rw [Framed.entries, List.length_cons, ih, List.length_cons]

/-- The table of fragments is read. -/
theorem readFragmentTable_eq {image : Bytes} {sBlk : SuperBlock} {table : List FragmentEntry}
    {unset : ℕ → ℕ} {fs : List (Bytes × Bytes)} {start : ℕ} (hfs : ∀ f ∈ fs, IsFrame z o f)
    (hfst : fs.flatMap Prod.fst = table.zipIdx.flatMap fun e => e.1.encode (unset e.2))
    (hlen : fs.length = Framed.count metadataSize (table.length * 16))
    (hblocks : At image start (fs.flatMap Prod.snd))
    (hlist : At image sBlk.fragmentTableStart
      (((Framed.entries start 0 fs).map Prod.fst).flatMap (Packed.toBytes 8)))
    (hfragments : sBlk.fragments = table.length) (hlt : image.length < 2 ^ 32)
    (htable : ∀ e ∈ table, e.startBlock < 2 ^ 64 ∧ e.size < 2 ^ 32) :
    readFragmentTable z image sBlk o.checkData = some table := by
  set starts := (Framed.entries start 0 fs).map Prod.fst with hstarts
  have hcount : starts.length = Framed.count metadataSize (table.length * 16) := by
    rw [hstarts, List.length_map, length_entries, hlen]
  have hread := readBytes_of_at hlist
  rw [length_flatMap_toBytes, hcount] at hread
  have hsmall : ∀ v ∈ starts, v < 256 ^ 8 := by
    intro v hv
    obtain ⟨e, he, hplace⟩ := List.mem_map.mp hv
    obtain ⟨_, hle⟩ := Framed.le_of_mem_entries he
    have hwithin := hblocks.le
    have hpow : (2 : ℕ) ^ 32 ≤ 256 ^ 8 := by decide
    omega
  have hints := readInts_flatMap 8 hsmall []
  rw [List.append_nil, hcount] at hints
  have htable' := readFragmentBlocks_eq hfs hblocks 0
  rw [← hstarts, hfst] at htable'
  rw [readFragmentTable, hfragments]
  simp only [Option.bind_eq_bind, hread, Option.bind_some, hints, htable']
  exact readEntries_eq unset htable 0

/-! ## Numbers in the super block -/

/-- The flags fit in the superblock's byte. -/
theorem Options.flags_lt (o : Options) : o.flags < 2 ^ 8 := by
  have hpack := Packed.pack_lt [(1, o.noI.toNat), (1, o.noD.toNat), (1, o.checkData.toNat),
    (1, o.noF.toNat), (1, o.noFragments.toNat), (1, o.alwaysUseFragments.toNat),
    (1, o.duplicateChecking.toNat)]
  have hlt : o.flags < 2 ^ 7 := hpack
  omega

/-- Bit 2 of the flags says whether each block has a marker byte before it. -/
theorem flags_checkData : o.flags / 2 ^ 2 % 2 = 1 ↔ o.checkData = true := by
  rw [Options.flags]
  simp only [Packed.pack]
  cases o.checkData with
  | false => simp; omega
  | true => simp; omega

/-- The lists of owners and groups. -/
theorem readIds_eq {image : Bytes} {start : ℕ} {uids guids : List ℕ}
    (hu : ∀ v ∈ uids, v < 2 ^ 32) (hg : ∀ v ∈ guids, v < 2 ^ 32)
    (hat : At image start
      (uids.flatMap (Packed.toBytes 4) ++ guids.flatMap (Packed.toBytes 4))) :
    ∃ ids, readBytes image start ((uids.length + guids.length) * 4) = some ids ∧
      readInts 4 uids.length ids = uids ∧
      readInts 4 guids.length (ids.drop (uids.length * 4)) = guids := by
  have hpow : (256 : ℕ) ^ 4 = 2 ^ 32 := by norm_num
  rw [← hpow] at hu hg
  have hread := readBytes_of_at hat
  rw [List.length_append, length_flatMap_toBytes, length_flatMap_toBytes, ← Nat.add_mul] at hread
  refine ⟨_, hread, readInts_flatMap 4 hu _, ?_⟩
  rw [List.drop_left' (length_flatMap_toBytes 4 uids)]
  have hguids := readInts_flatMap 4 hg []
  rw [List.append_nil] at hguids
  exact hguids

/-! ## The tables -/

/-- What `main` puts in the super block, with the places of the tables. -/
structure SuperOf (o : Options) (st : Mk) (root inodeStart dirStart fragStart uidStart : ℕ)
    (s : SuperBlock) : Prop where
  sMagic : s.sMagic = squashfsMagic
  inodes : s.inodes = st.inodeCount
  sMajor : s.sMajor = 3
  sMinor : s.sMinor = 0
  blockLog : s.blockLog = o.blockLog
  flags : s.flags = o.flags
  noUids : s.noUids = st.uids.length
  noGuids : s.noGuids = st.guids.length
  rootInode : s.rootInode = root
  blockSize : s.blockSize = o.blockSize
  fragments : s.fragments = st.fragmentTable.length
  uidStart : s.uidStart = if st.uids.length = 0 then 0 else uidStart
  inodeTableStart : s.inodeTableStart = inodeStart
  directoryTableStart : s.directoryTableStart = dirStart
  fragmentTableStart : s.fragmentTableStart = fragStart

/-- The parts of an image. -/
theorem writeTables_cases {mem : Memory} {nopad : Bool} {root : ℕ} {st : Mk} {image : Bytes}
    (he : writeTables z o mem nopad root st = some image) :
    ∃ st₁ start out s pad, writeFragment z o st = some st₁ ∧
      writeFragmentTable z o mem st₁.fragmentTable (st₁.out ++
        (st₁.inodes.finish (frame z o) metadataSize st₁.inodes.cache.length).table ++
        (st₁.directories.finish (frame z o) metadataSize st₁.directories.cache.length).table) =
          (start, out) ∧
      SuperOf o st₁ root st₁.out.length (st₁.out.length +
        (st₁.inodes.finish (frame z o) metadataSize st₁.inodes.cache.length).table.length) start
          out.length s ∧
      image = s.encode ++ (out ++ st₁.uids.flatMap (Packed.toBytes 4) ++
        st₁.guids.flatMap (Packed.toBytes 4)).drop superSize ++ pad := by
  unfold writeTables at he
  simp only [Option.bind_eq_bind, Option.bind_eq_some_iff] at he
  obtain ⟨st₁, hlast, he⟩ := he
  have himage := Option.some.inj he
  by_cases hpad : nopad = true
  · rw [if_pos hpad] at himage
    exact ⟨st₁, _, _, _, [], hlast, rfl, ⟨rfl, rfl, rfl, rfl, rfl, rfl, rfl, rfl, rfl, rfl,
      rfl, rfl, rfl, rfl, rfl⟩, himage.symm.trans (List.append_nil _).symm⟩
  · rw [if_neg hpad] at himage
    exact ⟨st₁, _, _, _, _, hlast, rfl, ⟨rfl, rfl, rfl, rfl, rfl, rfl, rfl, rfl, rfl, rfl,
      rfl, rfl, rfl, rfl, rfl⟩, himage.symm⟩

/-- The tables are read where the super block says. -/
theorem readTables_eq {image : Bytes} {s : SuperBlock} {ids : Bytes}
    {fragmentTable : List FragmentEntry} {inodes directories : Bytes × List (ℕ × ℕ)}
    (hsuper : superBlock image = some s.cut) (hmagic : s.cut.sMagic = squashfsMagic)
    (hmajor : s.cut.sMajor = 3) (hminor : s.cut.sMinor = 0)
    (hcheck : s.cut.checkData = o.checkData)
    (hids : readBytes image s.cut.uidStart ((s.cut.noUids + s.cut.noGuids) * 4) = some ids)
    (hfragments : readFragmentTable z image s.cut o.checkData = some fragmentTable)
    (hinodes : uncompressTable z image o.checkData s.cut.inodeTableStart
      s.cut.directoryTableStart = some inodes)
    (hdirectories : uncompressTable z image o.checkData s.cut.directoryTableStart
      s.cut.fragmentTableStart = some directories) :
    readTables z image = some ⟨image, s.cut, inodes.1, inodes.2, directories.1, directories.2,
      fragmentTable, readInts 4 s.cut.noUids ids,
      readInts 4 s.cut.noGuids (ids.drop (s.cut.noUids * 4))⟩ := by
  have hold : ¬ (s.cut.sMagic ≠ squashfsMagic ∨ s.cut.sMajor ≠ 3 ∨ 0 < s.cut.sMinor) := by
    rw [hmagic, hmajor, hminor]
    decide
  rw [readTables, hsuper]
  simp only [Option.bind_eq_bind, Option.bind_some, if_neg hold, hcheck, hids, hfragments,
    hinodes, hdirectories]

/-- A user id, `-root-owned` and `-force-uid` included, has 32 bits. -/
theorem Options.owner_lt (o : Options) (stat : Stat) : o.owner stat < 2 ^ 32 := by
  rw [Options.owner]
  cases h : o.globalUid with
  | none => exact stat.uid_lt
  | some u => exact (o.uid_lt u h).trans (by decide)

/-- A group id has 32 bits. -/
theorem Options.group_lt (o : Options) (stat : Stat) : o.group stat < 2 ^ 32 := by
  rw [Options.group]
  cases h : o.globalGid with
  | none => exact stat.gid_lt
  | some u => exact (o.gid_lt u h).trans (by decide)

theorem owners_lt : ∀ v ∈ sc.owners o, v < 2 ^ 32 := by
  intro v hv
  obtain ⟨stat, _, howner⟩ := List.mem_map.mp (List.mem_dedup.mp hv)
  rw [← howner]
  exact o.owner_lt stat

theorem groups_lt : ∀ v ∈ sc.groups o, v < 2 ^ 32 := by
  intro v hv
  obtain ⟨stat, _, hgroup⟩ := List.mem_map.mp (List.mem_dedup.mp hv)
  rw [← hgroup]
  exact o.group_lt stat

/-- The table of a stream that is finished. -/
theorem finish_eq {s : Framed.Stream UInt8 UInt8} {t : Bytes} {k : ℕ}
    (h : s.Holds (frame z o) metadataSize t k) :
    (s.finish (frame z o) metadataSize s.cache.length).table =
      (framed (frame z o) t).flatMap Prod.snd := by
  have hle : t.length ≤ k * metadataSize + s.cache.length := by
    rw [h.cache, List.length_drop]
    omega
  rw [framed_snd]
  exact h.finish (by decide) hle

/-- The blocks of file ends, when the last one is written. -/
theorem DataRep.read {out : Bytes} {table : List FragmentEntry} {frags : List Bytes}
    (h : DataRep z o out [] table frags) {i : ℕ} {b : Bytes} (hb : frags[i]? = some b)
    (hne : b ≠ []) : ∃ e, table[i]? = some e ∧ FragAt z o out e b := by
  obtain ⟨closed, hfrags, hclosed⟩ := h.frags
  rw [hfrags] at hb
  by_cases hi : i < closed.length
  · rw [List.getElem?_append_left hi] at hb
    have hi' : i < table.length := by rw [hclosed.length_eq]; exact hi
    refine ⟨table[i], List.getElem?_eq_getElem hi', ?_⟩
    have hget := hclosed.get hi' hi
    rw [List.getElem?_eq_getElem hi] at hb
    rw [← Option.some.inj hb]
    exact hget
  · -- the block that is open is empty
    rw [List.getElem?_append_right (by omega)] at hb
    obtain ⟨_, hempty⟩ := List.getElem?_eq_some_iff.mp hb
    rw [List.getElem_singleton] at hempty
    exact absurd hempty.symm hne

/-- The places and sizes of written fragments fit in the fields of an entry. -/
theorem DataRep.entry_lt {out : Bytes} {table : List FragmentEntry} {frags : List Bytes}
    (h : DataRep z o out [] table frags) (hlt : out.length < 2 ^ 32) :
    ∀ e ∈ table, e.startBlock < 2 ^ 64 ∧ e.size < 2 ^ 32 := by
  intro e he
  obtain ⟨closed, _, hclosed⟩ := h.frags
  obtain ⟨i, hi, hget⟩ := List.getElem_of_mem he
  have hi' : i < closed.length := by rw [← hclosed.length_eq]; exact hi
  have hat : FragAt z o out table[i] closed[i] := hclosed.get hi hi'
  rw [hget] at hat
  have hle := hat.data.le
  have hlt' := (mangled_block z o hat.ne_nil hat.length_le o.noF).lt
  have hpow : (2 : ℕ) ^ (compressedBitBlock + 1) < 2 ^ 32 := by decide
  rw [hat.size_eq]
  omega

/-- The last block of file ends is written before the tables. -/
theorem writeFragment_rep {st st₁ : Mk} {l : Laid} (h : Rep z o sc st l)
    (he : writeFragment z o st = some st₁) :
    ∃ l', Rep z o sc st₁ l' ∧ l.Le l' ∧ l'.dirs = l.dirs ∧ st₁.fragmentData = [] ∧
      st₁.uids = st.uids ∧ st₁.inodeCount = st.inodeCount := by
  obtain ⟨out, table, frags, hst, hdata, hout, hfrags⟩ := writeFragment_spec h.data he
  obtain ⟨hrep, hle⟩ := h.withData hdata hout hfrags
  rw [hst]
  exact ⟨_, hrep, hle, rfl, rfl, rfl, rfl⟩

/-- The super block is read as it was written, where its values are small. -/
theorem SuperOf.cut {st : Mk} {root inodeStart dirStart fragStart uidStart : ℕ} {s : SuperBlock}
    (h : SuperOf o st root inodeStart dirStart fragStart uidStart s) (huids : st.uids ≠ [])
    (hcount : st.inodeCount < 2 ^ 32) (hnoUids : st.uids.length < 2 ^ 8)
    (hnoGuids : st.guids.length < 2 ^ 8) (htable : st.fragmentTable.length < 2 ^ 32)
    (hinode : inodeStart < 2 ^ 32) (hdir : dirStart < 2 ^ 32) (hfrag : fragStart < 2 ^ 32)
    (huid : uidStart < 2 ^ 32) :
    SuperOf o st (root % 2 ^ 64) inodeStart dirStart fragStart uidStart s.cut := by
  have hlog := o.log_bounds.2
  have hblock := (blockSize_bounds o).2
  have hne : st.uids.length ≠ 0 := fun hnil => huids (List.length_eq_zero_iff.mp hnil)
  have hu := h.uidStart
  rw [if_neg hne] at hu
  have hlt : ∀ n, n < 2 ^ 32 → n % 2 ^ 64 = n := fun n hn => Nat.mod_eq_of_lt (by omega)
  refine ⟨congrArg (· % 2 ^ 32) h.sMagic, ?_, congrArg (· % 2 ^ 16) h.sMajor,
    congrArg (· % 2 ^ 16) h.sMinor, ?_, ?_, ?_, ?_, congrArg (· % 2 ^ 64) h.rootInode, ?_, ?_, ?_,
    ?_, ?_, ?_⟩
  · exact (congrArg (· % 2 ^ 32) h.inodes).trans (Nat.mod_eq_of_lt hcount)
  · exact (congrArg (· % 2 ^ 16) h.blockLog).trans (Nat.mod_eq_of_lt (by omega))
  · exact (congrArg (· % 2 ^ 8) h.flags).trans (Nat.mod_eq_of_lt o.flags_lt)
  · exact (congrArg (· % 2 ^ 8) h.noUids).trans (Nat.mod_eq_of_lt hnoUids)
  · exact (congrArg (· % 2 ^ 8) h.noGuids).trans (Nat.mod_eq_of_lt hnoGuids)
  · exact (congrArg (· % 2 ^ 32) h.blockSize).trans (Nat.mod_eq_of_lt (by omega))
  · exact (congrArg (· % 2 ^ 32) h.fragments).trans (Nat.mod_eq_of_lt htable)
  · rw [if_neg hne]
    exact (congrArg (· % 2 ^ 64) hu).trans (hlt uidStart huid)
  · exact (congrArg (· % 2 ^ 64) h.inodeTableStart).trans (hlt inodeStart hinode)
  · exact (congrArg (· % 2 ^ 64) h.directoryTableStart).trans (hlt dirStart hdir)
  · exact (congrArg (· % 2 ^ 64) h.fragmentTableStart).trans (hlt fragStart hfrag)

/-- The parts of an image stand one behind the other. -/
theorem at_parts {super out inodes dirs list ids pad image : Bytes}
    (hsuper : super.length = superSize) (hout : superSize ≤ out.length)
    (himage : image =
      super ++ (out ++ (inodes ++ (dirs ++ (list ++ ids)))).drop superSize ++ pad) :
    At image 0 super ∧ (∀ p bs, superSize ≤ p → At out p bs → At image p bs) ∧
      At image out.length inodes ∧ At image (out.length + inodes.length) dirs ∧
      At image (out.length + inodes.length + dirs.length) list ∧
      At image (out.length + inodes.length + dirs.length + list.length) ids := by
  have hat : ∀ p bs, superSize ≤ p → At (out ++ (inodes ++ (dirs ++ (list ++ ids)))) p bs →
      At image p bs := by
    intro p bs hp hbs
    rw [himage]
    exact at_image hsuper hp hbs
  have hbehind := Framed.at_end out (inodes ++ (dirs ++ (list ++ ids)))
  have hfront : At image 0 super := by
    rw [himage, List.append_assoc]
    exact ⟨[], _, rfl, rfl⟩
  exact ⟨hfront, fun p bs hp hbs => hat p bs hp (hbs.append _), hat _ _ hout hbehind.left,
    hat _ _ (by omega) hbehind.right.left, hat _ _ (by omega) hbehind.right.right.left,
    hat _ _ (by omega) hbehind.right.right.right⟩

/-- Tables that are read so are what was written. -/
theorem readable_of (hfits : sc.Fits z o) {st : Mk} {l : Laid} (h : Rep z o sc st l)
    (hnil : st.fragmentData = []) {t : Tables} {root dirStart fragStart uidStart : ℕ}
    (hs : SuperOf o st root l.out.length dirStart fragStart uidStart t.sBlk)
    {fs : List (Bytes × Bytes)} (hfs : ∀ f ∈ fs, f.2 ≠ [])
    (hdata : ∀ p bs, superSize ≤ p → At l.out p bs → At t.image p bs)
    (hinodes : t.inodeTable = l.inodes) (hinodeHash : t.inodeHash =
      (Framed.entries l.out.length 0 (framed (frame z o) l.inodes)).reverse)
    (hdirs : l.dirs <+: t.directoryTable) (hdirHash : t.directoryHash =
      (Framed.entries dirStart 0 (framed (frame z o) l.dirs ++ fs)).reverse)
    (hfragments : t.fragmentTable = st.fragmentTable) (huids : t.uidTable = st.uids)
    (hguids : t.guidTable = st.guids)
    (hinodesLt : l.out.length + ((framed (frame z o) l.inodes).flatMap Prod.snd).length < 2 ^ 32)
    (hdirsLt : dirStart + ((framed (frame z o) l.dirs ++ fs).flatMap Prod.snd).length < 2 ^ 32) :
    Readable z o l t := by
  have hframe := metaBlock_ne_nil z o.checkData o.noI
  refine ⟨⟨hs.blockSize, hs.blockLog, hdata, ?_⟩, hinodes, ?_, hdirs, ?_, ?_, ?_,
    huids.trans h.uids.symm, hguids.trans h.guids.symm, ?_, ?_, by omega⟩
  · intro i b hb hne
    have hrep := h.data
    rw [hnil, ← h.out] at hrep
    obtain ⟨e, he, hat⟩ := hrep.read hb hne
    rw [hfragments]
    exact ⟨e, he, hat.superSize_le, hat.ne_nil, hat.length_le, hat.size_eq,
      hdata _ _ hat.superSize_le hat.data⟩
  · intro p hp
    have hrest : ∀ f ∈ ([] : List (Bytes × Bytes)), f.2 ≠ [] :=
      fun f hf => absurd hf List.not_mem_nil
    rw [← List.append_nil (framed (frame z o) l.inodes)] at hinodeHash hinodesLt
    rw [hinodeHash, hs.inodeTableStart]
    exact lookupEntry_eq hframe l.inodes hrest hinodesLt hp
  · intro p hp
    rw [hdirHash, hs.directoryTableStart]
    exact lookupEntry_eq hframe l.dirs hfs hdirsLt hp
  · intro p hp
    have hplace := place_le (frame z o) l.inodes hp
    omega
  · intro p hp
    have hplace := place_le (frame z o) l.dirs hp
    rw [List.flatMap_append, List.length_append] at hdirsLt
    omega
  · rw [h.uids]
    exact h.uids_listed.length_le.trans hfits.owners
  · rw [h.guids]
    exact h.guids_listed.length_le.trans hfits.groups

/-- What an image must have beside: the last block of its table of fragments is not full, since
another one is written then, and the other tables have room in an `int`. -/
structure Sound (z : Zlib) (image : Bytes) : Prop where
  fragments : (superBlock image).all (fun s => decide (s.fragments = 0 ∨ s.fragments % 512 ≠ 0)) =
    true
  inodes : (superBlock image).all (fun s =>
    (readTable z image s.checkData s.inodeTableStart s.directoryTableStart).all fun r =>
      decide (r.1.length + 2 * metadataSize < 2 ^ 31)) = true
  directories : (superBlock image).all (fun s =>
    (readTable z image s.checkData s.directoryTableStart s.fragmentTableStart).all fun r =>
      decide (r.1.length + 2 * metadataSize < 2 ^ 31)) = true

/-- What `main` of `mksquashfs` writes at its end is what `main` of `unsquashfs` reads first. -/
theorem writeTables_spec (hfits : sc.Fits z o) {st : Mk} {l : Laid} (h : Rep z o sc st l)
    {mem : Memory} {nopad : Bool} {root : ℕ} (huids : st.uids ≠ [])
    (hcount : st.inodeCount < 2 ^ 32) {image : Bytes}
    (he : writeTables z o mem nopad root st = some image) (hlt : image.length < 2 ^ 32)
    (hsound : Sound z image) :
    ∃ l' t, l.Le l' ∧ l'.dirs = l.dirs ∧ readTables z image = some t ∧ Readable z o l' t ∧
      t.sBlk.rootInode = root % 2 ^ 64 ∧ t.sBlk.inodes = st.inodeCount := by
  obtain ⟨st₁, start, out', s, pad, he₁, he₂, hs, himage⟩ := writeTables_cases he
  obtain ⟨l', hrep, hle, hdirsEq, hnil, huids₁, hcount₁⟩ := writeFragment_rep h he₁
  rw [← huids₁] at huids
  rw [← hcount₁] at hcount
  have hdata := hrep.data
  rw [hnil] at hdata
  obtain ⟨k, hholds⟩ := hrep.inodes
  rw [finish_eq hholds, finish_eq hrep.dirs] at he₂
  rw [finish_eq hholds] at hs
  -- the super block
  have hsuper : superBlock image = some s.cut := by
    have hfront : At image 0 s.encode := by
      rw [himage, List.append_assoc]
      exact ⟨[], _, rfl, rfl⟩
    have hread := readBytes_of_at hfront
    rw [s.length_encode] at hread
    rw [superBlock, hread, Option.bind_some, SuperBlock.decode_encode]
  have htable := hdata.table_lt
  have hfull : st₁.fragmentTable = [] ∨ st₁.fragmentTable.length % 512 ≠ 0 := by
    have hfragments : s.cut.fragments = st₁.fragmentTable.length :=
      (congrArg (· % 2 ^ 32) hs.fragments).trans (Nat.mod_eq_of_lt (by omega))
    have hsound := hsound.fragments
    rw [hsuper, Option.all_some, decide_eq_true_iff, hfragments, List.length_eq_zero_iff] at hsound
    exact hsound
  obtain ⟨fs, hfs, hfst, hfslen, hstart, hout'⟩ := writeFragmentTable_spec hfull he₂
  set inodes := framed (frame z o) l'.inodes
  set dirs := framed (frame z o) l'.dirs
  set out := st₁.out
  have hframeDirs : ∀ f ∈ dirs ++ fs, IsFrame z o f := by
    intro f hf
    rcases List.mem_append.mp hf with hf | hf
    · exact framed_isFrame o.noI l'.dirs f hf
    · exact hfs f hf
  -- the parts, and where they stand
  set list := ((Framed.entries (out ++ inodes.flatMap Prod.snd ++
    dirs.flatMap Prod.snd).length 0 fs).map Prod.fst).flatMap (Packed.toBytes 8)
  have hwhole : out' ++ st₁.uids.flatMap (Packed.toBytes 4) ++
      st₁.guids.flatMap (Packed.toBytes 4) = out ++ (inodes.flatMap Prod.snd ++
        ((dirs ++ fs).flatMap Prod.snd ++ (list ++ (st₁.uids.flatMap (Packed.toBytes 4) ++
          st₁.guids.flatMap (Packed.toBytes 4))))) := by
    rw [hout', List.flatMap_append]
    simp only [List.append_assoc]
  rw [hwhole] at himage
  obtain ⟨hatSuper, hat, hatInodes, hatDirs, hatList, hatIds⟩ :=
    at_parts s.length_encode hdata.superSize_le himage
  have hatFrags := hatDirs
  rw [List.flatMap_append] at hatFrags
  have hatFrags := hatFrags.right
  have hidsLe := hatIds.le
  have hdirsLen : ((dirs ++ fs).flatMap Prod.snd).length =
      (dirs.flatMap Prod.snd).length + (fs.flatMap Prod.snd).length := by
    rw [List.flatMap_append, List.length_append]
  have hbegin : (out ++ inodes.flatMap Prod.snd ++ dirs.flatMap Prod.snd).length =
      out.length + (inodes.flatMap Prod.snd).length + (dirs.flatMap Prod.snd).length := by
    rw [List.length_append, List.length_append]
  have hstart' : start = out.length + (inodes.flatMap Prod.snd).length +
      ((dirs ++ fs).flatMap Prod.snd).length := by
    rw [hstart, hbegin, hdirsLen, Nat.add_assoc _ (dirs.flatMap Prod.snd).length]
  have hlen' : out'.length = start + list.length := by
    rw [hout', List.length_append, List.length_append, ← hstart]
  -- the super block, as it is read
  have hnoUids := hrep.uids_listed.length_le.trans hfits.owners
  have hnoGuids := hrep.guids_listed.length_le.trans hfits.groups
  have hcut := hs.cut huids hcount (by omega) (by omega) (by omega) (by omega) (by omega)
    (by omega) (by omega)
  have hne : st₁.uids.length ≠ 0 := fun hnil => huids (List.length_eq_zero_iff.mp hnil)
  have hcutUids := hcut.uidStart
  rw [if_neg hne] at hcutUids
  -- the tables
  have hreadFrags : readFragmentTable z image s.cut o.checkData = some st₁.fragmentTable := by
    rw [← hbegin] at hatFrags
    rw [← hstart', ← hcut.fragmentTableStart] at hatList
    exact readFragmentTable_eq hfs hfst hfslen hatFrags hatList hcut.fragments hlt
      (hdata.entry_lt (by omega))
  obtain ⟨ids, hreadIds, hreadUids, hreadGuids⟩ := readIds_eq
    (fun v hv => owners_lt v (hrep.uids_listed.2 hv))
    (fun v hv => groups_lt v (hrep.guids_listed.2 hv)) hatIds
  rw [← hstart', ← hlen', ← hcutUids, ← hcut.noUids, ← hcut.noGuids] at hreadIds
  rw [← hcut.noUids] at hreadUids hreadGuids
  rw [← hcut.noGuids] at hreadGuids
  have hcheck : s.cut.checkData = o.checkData := by
    rw [SuperBlock.checkData, hcut.flags, Bool.eq_iff_iff, decide_eq_true_iff]
    exact flags_checkData
  have hsmallInodes := hsound.inodes
  rw [hsuper, Option.all_some, hcheck, hcut.inodeTableStart, hcut.directoryTableStart,
    readTable_eq (framed_isFrame o.noI l'.inodes) hatInodes, Option.all_some,
    decide_eq_true_iff] at hsmallInodes
  have hsmallDirs := hsound.directories
  rw [hsuper, Option.all_some, hcheck, hcut.directoryTableStart, hcut.fragmentTableStart, hstart',
    readTable_eq hframeDirs hatDirs, Option.all_some, decide_eq_true_iff] at hsmallDirs
  have hreadInodes :=
    uncompressTable_eq (framed_isFrame o.noI l'.inodes) hatInodes hsmallInodes
  have hreadDirs := uncompressTable_eq hframeDirs hatDirs hsmallDirs
  have hread := readTables_eq hsuper hcut.sMagic hcut.sMajor hcut.sMinor hcheck hreadIds
    hreadFrags (by rw [hcut.inodeTableStart, hcut.directoryTableStart]; exact hreadInodes)
    (by rw [hcut.directoryTableStart, hcut.fragmentTableStart, hstart']; exact hreadDirs)
  rw [hreadUids, hreadGuids] at hread
  refine ⟨l', _, hle, hdirsEq, hread, ?_, hcut.rootInode, hcut.inodes.trans hcount₁⟩
  have hout : l'.out = out := hrep.out
  rw [← hout] at hcut hat
  refine readable_of hfits hrep hnil hcut (fun f hf => (hfs f hf).ne_nil) hat (framed_fst _ _) ?_ ?_
    ?_ rfl rfl rfl ?_ ?_
  · rw [hout]
  · show l'.dirs <+: (dirs ++ fs).flatMap Prod.fst
    rw [List.flatMap_append, framed_fst]
    exact List.prefix_append _ _
  · rw [hout]
  · rw [hout]
    show out.length + (inodes.flatMap Prod.snd).length < 2 ^ 32
    omega
  · rw [hout]
    show out.length + (inodes.flatMap Prod.snd).length +
      ((dirs ++ fs).flatMap Prod.snd).length < 2 ^ 32
    omega

/-! ## The whole program -/

/-- Every file has an inode at the end. -/
theorem infos_length {st : Mk} {l : Laid} (h : Rep z o sc st l)
    (hnodup : (st.infos.map Prod.fst).Nodup)
    (hfiles : ∀ k ∈ sc.entries.files, k ∈ st.infos.map Prod.fst) :
    st.infos.length = sc.nodes.length := by
  have hmem : ∀ k, k ∈ st.infos.map Prod.fst ↔ k ∈ List.range sc.nodes.length := by
    intro k
    rw [List.mem_range]
    constructor
    · intro hk
      obtain ⟨i, hi, hfst⟩ := List.mem_map.mp hk
      obtain ⟨node, hnode, _⟩ := h.infos i hi
      rw [← hfst]
      exact (List.getElem?_eq_some_iff.mp hnode).1
    · exact fun hk => hfiles k (sc.mem_of_lt k hk)
  have hperm := (List.perm_ext_iff_of_nodup hnodup List.nodup_range).mpr hmem
  have hlen := hperm.length_eq
  rw [List.length_map, List.length_range] at hlen
  exact hlen

/-- A directory that lists something has bytes. -/
theorem Listing.ne_nil {ents : List DirEnt} {bs : Bytes} (h : Listing ents bs) (hne : ents ≠ []) :
    bs ≠ [] := by
  cases h with
  | nil => exact absurd rfl hne
  | cons _ _ _ _ =>
    intro hnil
    have hlen := congrArg List.length hnil
    rw [List.length_append, List.length_append, DirHeader.encode, Packed.length_encode] at hlen
    simp at hlen

/-- A directory with names has entries in the directory table. -/
theorem TreeAt.ne_nil {l : Laid} {nodes : List Node} {dirInodeNo m : ℕ} {es : Entries}
    {ents : List DirEnt} (h : TreeAt z o l nodes dirInodeNo m es ents) (hne : es ≠ .nil) :
    ents ≠ [] := by
  cases h with
  | nil => exact absurd rfl hne
  | file _ _ _ => exact List.cons_ne_nil _ _
  | dir _ _ _ _ => exact List.cons_ne_nil _ _

/-- A written directory has put its owner into the table of user ids. -/
theorem DirAt.owner_ne_nil {l : Laid} {es : Entries} {stat : Stat} {number p inode : ℕ}
    {ents : List DirEnt} (h : DirAt z o l es stat number p ents inode) : l.uids ≠ [] := by
  have hinode : ∃ type record, InodeAt z o l stat type number record inode := by
    obtain ⟨_, _, _, header, _, _, _, hinode⟩ := h
    split_ifs at hinode
    · obtain ⟨_, n, index, hat⟩ := hinode
      exact ⟨_, _, hat⟩
    · exact ⟨_, _, hinode.2⟩
  obtain ⟨type, record, _, u, g, hat, _⟩ := hinode
  intro hnil
  have huid := hat.owner.uid
  rw [hnil] at huid
  simp at huid

/-- In a scan that fits, the contents of each node fit in its inode. -/
theorem Scan.contents_fits (hfits : sc.Fits z o) : ∀ node ∈ sc.nodes, node.contents.Fits := by
  intro node hn
  cases hc : node.contents with
  | reg content => exact hfits.contents content ⟨node, hn, hc⟩
  | symlink target => exact sc.targets node hn target hc
  | chrdev major minor => trivial
  | blkdev major minor => trivial
  | fifo => trivial
  | socket => trivial

/-- No block becomes smaller. -/
def storing : Zlib where
  compress s := 0x78 :: s
  uncompress s := some s.tail
  uncompress_compress _ := rfl
  compress_ne_nil _ := List.cons_ne_nil _ _

/-- The options that `main` begins with. -/
def defaultOptions : Options where
  noI := false
  noD := false
  noF := false
  checkData := false
  noFragments := false
  alwaysUseFragments := false
  duplicateChecking := true
  globalUid := none
  globalGid := none
  blockLog := 16
  log_bounds := by decide
  uid_lt u h := absurd h (Option.not_mem_none u)
  gid_lt u h := absurd h (Option.not_mem_none u)

/-- Memory that was never used. -/
def zeroed : Memory :=
  ⟨⟨0, 0, 0, 0, 0, 0, 0, 0, 0, 0, 0, 0, 0, 0, 0, 0, 0, 0, 0, 0, 0, 0, 0, 0, 0, 0⟩, fun _ => 0,
    fun _ => 0⟩

def userStat (mode : ℕ) : Stat := ⟨mode, 1000, 100, 0, by decide, by decide⟩

/-- A file with two names, one of them in a directory below. -/
def twoNames : Scan where
  stat := userStat 0o40755
  number := 2
  entries := .file [98] 0 (.dir [115] (userStat 0o40755) 1 (.file [97] 0 .nil) .nil)
  nodes := [⟨userStat 0o100644, 2, .reg [104, 105]⟩]
  dirInodeNo := 3
  lt_of_mem := by decide
  mem_of_lt := by decide
  dirInodeNo_eq := rfl
  sorted := by
    simp only [Entries.Sorted, Entries.heads, List.forall_mem_singleton]
    decide
  names := by decide
  targets := by
    intro node hn t ht
    rw [List.mem_singleton.mp hn] at ht
    exact absurd ht (by simp)

theorem twoNames_fits : twoNames.Fits storing defaultOptions := by
  have hcontent : ∀ content, twoNames.HasContent content → content = [104, 105] := by
    intro content h
    obtain ⟨node, hn, hc⟩ := h
    rw [List.mem_singleton.mp hn] at hc
    exact (Contents.reg.inj hc).symm
  refine ⟨by decide, by decide, ?_, by decide, ?_⟩
  · intro content h
    rw [hcontent content h]
    decide
  · intro _ c c' h h' _ _
    rw [hcontent c h, hcontent c' h']

end Squashfs
