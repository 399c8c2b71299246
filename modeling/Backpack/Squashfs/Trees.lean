import Backpack.Squashfs.Inodes
import Backpack.Squashfs.Reading

/-!
# Trees come back

`dir_scan2` writes a directory behind everything that is below it, and `dir_scan` of `unsquashfs`
finds all of it again from the inode of the directory.
-/

namespace Squashfs

open Framed (At place)

variable {z : Zlib} {o : Options} {sc : Scan}

/-! ## Writing a directory -/

/-- The loop over full blocks leaves the stream as it would be left without index entries. -/
theorem indexLoop_fst (frame : Bytes → Bytes) (n limit : ℕ) (s : Framed.Stream UInt8 UInt8)
    (rest : List (ℕ × Bytes)) (set : List (ℕ × ℕ × Bytes)) :
    (indexLoop frame n limit s rest set).1 = s.flush frame metadataSize n := by
  induction n generalizing limit s rest set with
  | zero => rfl
  | succ n ih =>
    rw [indexLoop, Framed.Stream.flush]
    by_cases h : metadataSize ≤ s.cache.length
    · simp only [if_pos h]
      exact ih _ _ _ _
    · simp only [if_neg h]

/-- `write_dir` lays out the listing and the inode of a directory. -/
theorem writeDir_spec (hfits : sc.Fits z o) {st st' : Mk} {l : Laid} (h : Rep z o sc st l)
    {es : Entries} {stat : Stat} (hs : stat ∈ sc.stats) {number parent inode : ℕ} {d : Directory}
    {ents : List DirEnt} (hd : d.Lists ents)
    (hsmall : d.buff.length ≤ es.byteCount + 9 * es.count)
    (he : writeDir z o es stat number parent d st = some (inode, st')) :
    ∃ l', Rep z o sc st' l' ∧ l.Le l' ∧ l'.dirs = l.dirs ++ d.buff ∧
      DirAt z o l' es stat number l.dirs.length ents inode ∧
      st'.infos = st.infos ∧ st'.inodeCount = st.inodeCount + 1 := by
  have hplace := h.dirs.place_eq
  have hcache : st.directories.cache.length =
      l.dirs.length - l.dirs.length / metadataSize * metadataSize := by
    rw [h.dirs.cache, List.length_drop]
  -- the bytes of the directory go to the stream
  have hflush := (h.dirs.append d.buff).flush (n := (st.directories.cache ++ d.buff).length)
    (by decide) (by rw [List.length_append, List.length_append]; omega)
  set r := indexLoop (frame z o) (st.directories.cache ++ d.buff).length
    (metadataSize - st.directories.cache.length)
    ⟨st.directories.table, st.directories.cache ++ d.buff⟩ d.index [] with hr
  have hflushed : r.1 = Framed.Stream.flush (frame z o) metadataSize
      (st.directories.cache ++ d.buff).length
      ⟨st.directories.table, st.directories.cache ++ d.buff⟩ := indexLoop_fst _ _ _ _ _ _
  rw [← hflushed] at hflush
  have hle : l.Le { l with dirs := l.dirs ++ d.buff } :=
    ⟨List.prefix_rfl, List.prefix_rfl, List.prefix_append _ _, List.prefix_rfl, List.prefix_rfl,
      FragsLe.refl _⟩
  have hrep : Rep z o sc { st with directories := r.1 } { l with dirs := l.dirs ++ d.buff } :=
    ⟨h.out, h.data, h.inodes, hflush, h.uids, h.guids, h.uids_listed, h.guids_listed,
      h.dupl_mono hle, h.infos_mono hle⟩
  set header : DirInodeHeader := ⟨es.directoryCount + 2, d.buff.length + 3,
    st.directories.cache.length, st.directories.table.length, parent⟩ with hheader
  have hstart : header.startBlock =
      (place (frame z o) metadataSize (l.dirs ++ d.buff) l.dirs.length).1 := by
    rw [Framed.place_append (Nat.le_refl _), hplace]
  have hoffset : header.offset = l.dirs.length % metadataSize := by
    have hsnd := congrArg Prod.snd hplace
    exact hsnd.symm
  unfold writeDir at he
  simp only at he
  by_cases hldir : es.isLdir = true
  · rw [if_pos hldir] at he
    by_cases hbig : 2 ^ 27 ≤ d.buff.length + 3
    · rw [if_pos hbig] at he
      simp at he
    · rw [if_neg hbig] at he
      obtain ⟨l', hlaid, hinode⟩ := createInode_spec hfits hrep hs ldirType number (fun b =>
        header.encodeL b r.2.length ++
          r.2.flatMap fun e => encodeDirIndex e.1 e.2.1 (e.2.2.length - 1) ++ e.2.2)
      have hcreated := Option.some.inj he
      rw [show createInode z o stat ldirType number (fun b =>
        header.encodeL b r.2.length ++
          r.2.flatMap fun e => encodeDirIndex e.1 e.2.1 (e.2.2.length - 1) ++ e.2.2)
        { st with directories := r.1 } = (inode, st') from hcreated] at hlaid hinode
      refine ⟨l', hlaid.rep, hle.trans hlaid.le, hlaid.dirs,
        ⟨d.buff, hd.listing, ?_, header, rfl, ?_, hoffset, ?_⟩, hlaid.infos, hlaid.inodeCount⟩
      · rw [hlaid.dirs]
        exact Framed.at_end _ _
      · rw [hlaid.dirs]
        exact hstart
      · rw [if_pos hldir]
        exact ⟨Nat.lt_of_not_le hbig, _, _, hinode⟩
  · rw [if_neg hldir] at he
    obtain ⟨l', hlaid, hinode⟩ :=
      createInode_spec hfits hrep hs dirType number (fun b => header.encode b)
    have hcreated := Option.some.inj he
    rw [show createInode z o stat dirType number (fun b => header.encode b)
      { st with directories := r.1 } = (inode, st') from hcreated] at hlaid hinode
    refine ⟨l', hlaid.rep, hle.trans hlaid.le, hlaid.dirs, ⟨d.buff, hd.listing, ?_, header, rfl, ?_,
      hoffset, ?_⟩, hlaid.infos, hlaid.inodeCount⟩
    · rw [hlaid.dirs]
      exact Framed.at_end _ _
    · rw [hlaid.dirs]
      exact hstart
    · rw [if_neg hldir]
      refine ⟨?_, hinode⟩
      -- a directory with few entries and short names has few bytes
      have hfew : es.count < 257 ∧ es.byteCount < metadataSize := by
        simpa [Entries.isLdir] using hldir
      have hsize : metadataSize = 8192 := rfl
      show d.buff.length + 3 < 2 ^ 19
      omega

/-! ## The second scan -/

/-- The offset of an inode in its block has 13 bits. -/
theorem InodeAt.offset_lt {l : Laid} {stat : Stat} {type number inode : ℕ}
    {record : BaseInodeHeader → Bytes} (h : InodeAt z o l stat type number record inode) :
    inode % 2 ^ 16 < 2 ^ 13 := by
  obtain ⟨p, u, g, _, hinode⟩ := h
  rw [hinode, placeOf_mod]
  exact Nat.mod_lt _ (by decide)

theorem NodeAt.offset_lt {l : Laid} {node : Node} {number inode type : ℕ}
    (h : NodeAt z o l node number inode type) : inode % 2 ^ 16 < 2 ^ 13 ∧ type < 2 ^ 3 := by
  unfold NodeAt at h
  cases hc : node.contents with
  | reg content =>
    rw [hc] at h
    obtain ⟨htype, start, blockList, frag, _, hreg⟩ := h
    unfold RegAt at hreg
    simp only at hreg
    rw [htype]
    split_ifs at hreg
    · exact ⟨hreg.offset_lt, by decide⟩
    · exact ⟨hreg.offset_lt, by decide⟩
  | symlink target => rw [hc] at h; rw [h.1]; exact ⟨h.2.offset_lt, by decide⟩
  | chrdev major minor => rw [hc] at h; rw [h.1]; exact ⟨h.2.offset_lt, by decide⟩
  | blkdev major minor => rw [hc] at h; rw [h.1]; exact ⟨h.2.offset_lt, by decide⟩
  | fifo => rw [hc] at h; rw [h.1]; exact ⟨h.2.offset_lt, by decide⟩
  | socket => rw [hc] at h; rw [h.1]; exact ⟨h.2.offset_lt, by decide⟩

theorem DirAt.offset_lt {l : Laid} {es : Entries} {stat : Stat} {number p inode : ℕ}
    {ents : List DirEnt} (h : DirAt z o l es stat number p ents inode) :
    inode % 2 ^ 16 < 2 ^ 13 := by
  obtain ⟨bs, _, _, header, _, _, _, hinode⟩ := h
  split_ifs at hinode
  · obtain ⟨_, n, index, hat⟩ := hinode
    exact hat.offset_lt
  · exact hinode.2.offset_lt

/-- A name that `struct dirent` can have. -/
def IsName (n : Bytes) : Prop := n ≠ [] ∧ n.length ≤ nameLen ∧ 0 ∉ n

/-- An entry with a name of at most 255 bytes fits in its record. -/
theorem IsName.fits {n : Bytes} (hn : IsName n) {inode type : ℕ} (hi : inode % 2 ^ 16 < 2 ^ 13)
    (ht : type < 2 ^ 3) : (entOf inode n type).Fits :=
  ⟨hn.1, hn.2.1, hn.2.2, hi, ht⟩

/-- The inodes that were made: one for each file that is known, and the directories. -/
structure Counted (st : Mk) (dirs : ℕ) : Prop where
  inodeCount : st.inodeCount = dirs + st.infos.length
  nodup : (st.infos.map Prod.fst).Nodup

/-- What is true after a directory was scanned. -/
structure Scanned (z : Zlib) (o : Options) (sc : Scan) (es : Entries) (d : Directory)
    (ents : List DirEnt) (st : Mk) (l : Laid) (dirs : ℕ) (d' : Directory) (st' : Mk) (l' : Laid)
    (ents' : List DirEnt) : Prop where
  rep : Rep z o sc st' l'
  le : l.Le l'
  lists : d'.Lists (ents ++ ents')
  tree : TreeAt z o l' sc.nodes sc.dirInodeNo l'.dirs.length es ents'
  length_le : d'.buff.length ≤ d.buff.length + (es.byteCount + 9 * es.count)
  counted : Counted st' (dirs + es.dirs)
  files : ∀ k ∈ es.files, k ∈ st'.infos.map Prod.fst
  keep : st.infos.map Prod.fst ⊆ st'.infos.map Prod.fst

/-- One entry, and the rest of them. -/
theorem dirScan2_file {st st₁ : Mk} {l l₁ : Laid} {name : Bytes} {k dirs inode type : ℕ}
    {rest : Entries} {d d' : Directory} {ents ents' : List DirEnt} {st' : Mk} {l' : Laid}
    {node : Node} (hle : l.Le l₁) (hk : sc.nodes[k]? = some node)
    (hn : NodeAt z o l₁ node (k + sc.dirInodeNo) inode type)
    (hmem : k ∈ st₁.infos.map Prod.fst) (hkeep : st.infos.map Prod.fst ⊆ st₁.infos.map Prod.fst)
    (h : Scanned z o sc rest (addDir inode (k + sc.dirInodeNo) name type d)
      (ents ++ [entOf inode name type]) st₁ l₁ dirs d' st' l' ents') :
    Scanned z o sc (.file name k rest) d ents st l dirs d' st' l'
      (entOf inode name type :: ents') where
  rep := h.rep
  le := hle.trans h.le
  lists := by
    have hlists := h.lists
    rw [List.append_assoc] at hlists
    exact hlists
  tree := .file hk (hn.mono h.le) h.tree
  length_le := by
    have hlen := h.length_le
    have hadd := length_buff_addDir d inode (k + sc.dirInodeNo) name type
    show _ ≤ d.buff.length + (name.length + 5 + rest.byteCount + 9 * (rest.count + 1))
    omega
  counted := h.counted
  files := by
    intro j hj
    rcases List.mem_cons.mp hj with hj | hj
    · rw [hj]
      exact h.keep hmem
    · exact h.files j hj
  keep := List.Subset.trans hkeep h.keep

/-- `dir_scan2` lays out every file and directory below, and lists them in order. -/
theorem dirScan2_spec (hfits : sc.Fits z o) {es : Entries} (hs : ∀ s ∈ es.stats, s ∈ sc.stats)
    (hnames : ∀ n ∈ es.names, IsName n) {self dirs : ℕ} {d d' : Directory} {ents : List DirEnt}
    {st st' : Mk} {l : Laid} (h : Rep z o sc st l) (hd : d.Lists ents) (hc : Counted st dirs)
    (he : dirScan2 z o sc.nodes sc.dirInodeNo self es d st = some (d', st')) :
    ∃ l' ents', Scanned z o sc es d ents st l dirs d' st' l' ents' := by
  induction es generalizing self dirs d d' ents st st' l with
  | nil =>
    have hend := Option.some.inj he
    rw [Prod.mk.injEq] at hend
    rw [← hend.1, ← hend.2]
    refine ⟨l, [], h, l.le_refl, ?_, .nil, Nat.le_add_right _ _, hc, ?_, List.Subset.refl _⟩
    · rw [List.append_nil]
      exact hd
    · exact fun k hk => absurd hk List.not_mem_nil
  | file name k rest ih =>
    have hs' : ∀ s ∈ rest.stats, s ∈ sc.stats := hs
    have hname : IsName name := hnames name List.mem_cons_self
    have hnames' : ∀ n ∈ rest.names, IsName n := fun n hn => hnames n (List.mem_cons_of_mem _ hn)
    rw [dirScan2] at he
    cases hlook : st.infos.lookup k with
    | some info =>
      -- another name of a file that has an inode
      simp only [hlook, Option.bind_eq_bind, Option.bind_some] at he
      obtain ⟨l₁, l₂, hl, _⟩ := List.lookup_eq_some_iff.mp hlook
      have hmem : (k, info) ∈ st.infos := by
        rw [hl]
        simp
      obtain ⟨node, hk, hn⟩ := h.infos _ hmem
      have hoff := hn.offset_lt
      have hlists := hd.addDir (hname.fits hoff.1 hoff.2) (k + sc.dirInodeNo)
      obtain ⟨l', ents', hscanned⟩ := ih hs' hnames' h hlists hc he
      exact ⟨l', _, dirScan2_file l.le_refl hk hn (List.mem_map_of_mem hmem)
        (List.Subset.refl _) hscanned⟩
    | none =>
      simp only [hlook, Option.bind_eq_bind, Option.bind_eq_some_iff] at he
      obtain ⟨node, hk, ⟨inode, type, st₁⟩, hf, r, hr, he⟩ := he
      rw [← Option.some.inj hr] at he
      obtain ⟨l₁, hlaid, hn⟩ := createFile_spec hfits h (List.mem_of_getElem? hk) hf
      have hinfos := hlaid.infos
      have hrep : Rep z o sc { st₁ with infos := (k, inode, type) :: st₁.infos } l₁ := by
        refine ⟨hlaid.rep.out, hlaid.rep.data, hlaid.rep.inodes, hlaid.rep.dirs, hlaid.rep.uids,
          hlaid.rep.guids, hlaid.rep.uids_listed, hlaid.rep.guids_listed, hlaid.rep.dupl, ?_⟩
        intro i hi
        rcases List.mem_cons.mp hi with hi | hi
        · rw [hi]
          exact ⟨node, hk, hn⟩
        · exact hlaid.rep.infos i hi
      have hkeys : ((k, inode, type) :: st₁.infos).map Prod.fst = k :: st.infos.map Prod.fst := by
        rw [hinfos]
        rfl
      have hcount : Counted { st₁ with infos := (k, inode, type) :: st₁.infos } dirs := by
        constructor
        · show st₁.inodeCount = dirs + ((k, inode, type) :: st₁.infos).length
          rw [hlaid.inodeCount, hinfos, List.length_cons, hc.inodeCount]
          omega
        · show (((k, inode, type) :: st₁.infos).map Prod.fst).Nodup
          rw [hkeys, List.nodup_cons]
          refine ⟨fun hmem => ?_, hc.nodup⟩
          obtain ⟨i, hi, hik⟩ := List.mem_map.mp hmem
          have hne := List.lookup_eq_none_iff.mp hlook i hi
          rw [hik] at hne
          simp at hne
      have hoff := hn.offset_lt
      have hlists := hd.addDir (hname.fits hoff.1 hoff.2) (k + sc.dirInodeNo)
      obtain ⟨l', ents', hscanned⟩ := ih hs' hnames' hrep hlists hcount he
      refine ⟨l', _, dirScan2_file hlaid.le hk hn ?_ ?_ hscanned⟩
      · exact List.mem_cons_self
      · show _ ⊆ ((k, inode, type) :: st₁.infos).map Prod.fst
        rw [hkeys]
        exact List.subset_cons_self _ _
  | dir name stat number sub rest ihsub ihrest =>
    have hstat : stat ∈ sc.stats := hs stat List.mem_cons_self
    have hsub : ∀ s ∈ sub.stats, s ∈ sc.stats := fun s hmem =>
      hs s (List.mem_cons_of_mem _ (List.mem_append_left _ hmem))
    have hrest : ∀ s ∈ rest.stats, s ∈ sc.stats := fun s hmem =>
      hs s (List.mem_cons_of_mem _ (List.mem_append_right _ hmem))
    have hname : IsName name := hnames name List.mem_cons_self
    have hnsub : ∀ n ∈ sub.names, IsName n := fun n hmem =>
      hnames n (List.mem_cons_of_mem _ (List.mem_append_left _ hmem))
    have hnrest : ∀ n ∈ rest.names, IsName n := fun n hmem =>
      hnames n (List.mem_cons_of_mem _ (List.mem_append_right _ hmem))
    rw [dirScan2] at he
    simp only [Option.bind_eq_bind, Option.bind_eq_some_iff] at he
    obtain ⟨⟨d₁, st₁⟩, he₁, ⟨inode, st₂⟩, he₂, he⟩ := he
    -- what is below it
    obtain ⟨l₁, ents₁, hsubScanned⟩ := ihsub hsub hnsub h Directory.lists_init hc he₁
    -- the directory itself
    have hbuff : d₁.buff.length ≤ sub.byteCount + 9 * sub.count := by
      have hlen := hsubScanned.length_le
      have hinit : Directory.init.buff.length = 0 := rfl
      omega
    have hlists₁ : d₁.Lists ents₁ := hsubScanned.lists
    obtain ⟨l₂, hrep, hle, hdirs, hdir, hinfos, hcount⟩ :=
      writeDir_spec hfits hsubScanned.rep hstat hlists₁ hbuff he₂
    have hkeys : st₂.infos.map Prod.fst = st₁.infos.map Prod.fst := by rw [hinfos]
    have hc₂ : Counted st₂ (dirs + sub.dirs + 1) := by
      constructor
      · rw [hcount, hsubScanned.counted.inodeCount, hinfos]
        omega
      · rw [hkeys]
        exact hsubScanned.counted.nodup
    -- the rest
    have hlists := hd.addDir (hname.fits hdir.offset_lt (by decide : dirType < 2 ^ 3)) number
    obtain ⟨l', ents', hscanned⟩ := ihrest hrest hnrest hrep hlists hc₂ he
    have hlen := hscanned.le.dirs.length_le
    have hlen₁ : l₁.dirs.length ≤ l'.dirs.length := by
      rw [hdirs, List.length_append] at hlen
      omega
    refine ⟨l', entOf inode name dirType :: ents', hscanned.rep,
      hsubScanned.le.trans (hle.trans hscanned.le), ?_, ?_, ?_, ?_, ?_, ?_⟩
    · have hall := hscanned.lists
      rw [List.append_assoc] at hall
      exact hall
    · exact .dir hlen₁ (hdir.mono hscanned.le)
        (hsubScanned.tree.mono (hle.trans hscanned.le) hlen₁) hscanned.tree
    · have hlen' := hscanned.length_le
      have hadd := length_buff_addDir d inode number name dirType
      show _ ≤ d.buff.length + (name.length + 5 + rest.byteCount + 9 * (rest.count + 1))
      omega
    · have hcounted := hscanned.counted
      have hsum : dirs + sub.dirs + 1 + rest.dirs = dirs + (sub.dirs + rest.dirs + 1) := by omega
      rw [hsum] at hcounted
      exact hcounted
    · intro j hj
      rcases List.mem_append.mp hj with hj | hj
      · apply hscanned.keep
        rw [hkeys]
        exact hsubScanned.files j hj
      · exact hscanned.files j hj
    · have hkeep := hscanned.keep
      rw [hkeys] at hkeep
      exact List.Subset.trans hsubScanned.keep hkeep

/-! ## Reading a directory -/

/-- An image that can be read has its inodes below 4 GiB. -/
theorem DirAt.startBlock_lt {l : Laid} {t : Tables} (ht : Readable z o l t) {es : Entries}
    {stat : Stat} {number p inode : ℕ} {ents : List DirEnt}
    (h : DirAt z o l es stat number p ents inode) : inode / 2 ^ 16 < 2 ^ 32 := by
  obtain ⟨_, _, _, _, _, _, _, hinode⟩ := h
  split_ifs at hinode
  · obtain ⟨_, _, _, hinode⟩ := hinode
    exact (hinode.read ht fun b => ⟨_, _, rfl⟩).1
  · exact (hinode.2.read ht fun b => ⟨_, [], (List.append_nil _).symm⟩).1

/-- `squashfs_openddir` gives back the entries that were listed. -/
theorem squashfsOpenddir_eq {l : Laid} {t : Tables} (ht : Readable z o l t) {es : Entries}
    {stat : Stat} {number p inode : ℕ} {ents : List DirEnt}
    (h : DirAt z o l es stat number p ents inode) (hp : p < l.dirs.length)
    (hlt : ∀ e ∈ ents, e.startBlock < 2 ^ 32) :
    ∃ type u g, OwnerAt o l stat u g ∧
      squashfsOpenddir t (inode / 2 ^ 16) (inode % 2 ^ 16) =
        some (some (readBase stat type u g number, ents)) := by
  obtain ⟨bs, hlist, hat, header, hsize, hstart, hoffset, hinode⟩ := h
  have hstart' : header.startBlock % 2 ^ 32 = header.startBlock := by
    rw [hstart]
    exact Nat.mod_eq_of_lt (ht.dirPlace_lt p hp)
  have hoffset' : header.offset % 2 ^ 13 = p % metadataSize := by
    rw [hoffset]
    exact Nat.mod_eq_of_lt (Nat.mod_lt _ (by decide))
  have hlook := ht.directoryHash p hp
  rw [← hstart] at hlook
  have hplace : p / metadataSize * metadataSize + p % metadataSize = p := by
    rw [Nat.mul_comm]
    exact Nat.div_add_mod p metadataSize
  have hread : readDirHeaders t.directoryTable (p + (bs.length + 3) - 3) (bs.length + 3 + 1) p =
      some ents := by
    have hend : p + (bs.length + 3) - 3 = p + bs.length := by omega
    rw [hend]
    exact readDirHeaders_eq hlist hlt (hat.grow ht.directoryTable) (by omega)
  by_cases hldir : es.isLdir = true
  · rw [if_pos hldir] at hinode
    obtain ⟨hlt27, n, index, hinode⟩ := hinode
    obtain ⟨_, _, u, g, post, bytes, howner, hblock, hbytes, hbase⟩ :=
      hinode.read ht fun b => ⟨_, _, rfl⟩
    refine ⟨ldirType, u, g, howner, ?_⟩
    have hfile : header.fileSize % 2 ^ 27 = bs.length + 3 := by
      rw [Nat.mod_eq_of_lt hlt27, hsize]
    have htype : (readBase stat ldirType u g number).inodeType = ldirType := rfl
    rw [squashfsOpenddir, hblock]
    simp only [Option.bind_eq_bind, hbase, Option.bind_some, htype]
    rw [if_neg (by decide : ¬ ldirType = dirType), if_pos trivial, hbytes, List.append_assoc,
      DirInodeHeader.decodeL_encodeL]
    simp only [Option.map_some, Option.bind_some, hstart', hlook, hoffset', hplace, hfile, hread]
  · rw [if_neg hldir] at hinode
    obtain ⟨hlt19, hinode⟩ := hinode
    obtain ⟨_, _, u, g, post, bytes, howner, hblock, hbytes, hbase⟩ :=
      hinode.read ht fun b => ⟨_, [], (List.append_nil _).symm⟩
    refine ⟨dirType, u, g, howner, ?_⟩
    have hfile : header.fileSize % 2 ^ 19 = bs.length + 3 := by
      rw [Nat.mod_eq_of_lt hlt19, hsize]
    have htype : (readBase stat dirType u g number).inodeType = dirType := rfl
    rw [squashfsOpenddir, hblock]
    simp only [Option.bind_eq_bind, hbase, Option.bind_some, htype]
    rw [if_pos trivial, hbytes, DirInodeHeader.decode_encode]
    simp only [Option.map_some, Option.bind_some, hstart', hlook, hoffset', hplace, hfile, hread]

/-- The loop body of `dir_scan`. -/
def dirStep (z : Zlib) (t : Tables) (n : ℕ) (parent : Bytes) (r : List Call × List (ℕ × Bytes))
    (e : DirEnt) : Option (List Call × List (ℕ × Bytes)) := do
  let pathname := parent ++ 47 :: e.name
  if 1024 ≤ pathname.length then none
  else do
    let r' ←
      if e.type = dirType then unsquashDir z t n pathname e.startBlock e.offset r.2
      else unsquashInode z t pathname e.startBlock e.offset r.2
    some (r.1 ++ r'.1, r'.2)

/-- One step of `dir_scan` makes the file, or goes into the directory. -/
theorem dirStep_eq (t : Tables) (n : ℕ) {parent : Bytes} (r : List Call × List (ℕ × Bytes))
    {e : DirEnt} (h : parent.length + (e.name.length + 1) < 1024) :
    dirStep z t n parent r e =
      (if e.type = dirType then unsquashDir z t n (below parent e.name) e.startBlock e.offset r.2
      else unsquashInode z t (below parent e.name) e.startBlock e.offset r.2).bind fun r' =>
        some (r.1 ++ r'.1, r'.2) := by
  have hlen : (parent ++ 47 :: e.name).length = parent.length + (e.name.length + 1) := by
    rw [List.length_append, List.length_cons]
  unfold dirStep below
  by_cases hdir : e.type = dirType
  · simp only [hlen, Nat.not_le_of_lt h, if_false, if_pos hdir]
    rfl
  · simp only [hlen, Nat.not_le_of_lt h, if_false, if_neg hdir]
    rfl

/-- A directory that is found, once its entries are there. -/
theorem unsquashDir_eq {l : Laid} {t : Tables} (ht : Readable z o l t) {stat : Stat}
    {type u g number startBlock offset n : ℕ} {ents : List DirEnt} (howner : OwnerAt o l stat u g)
    (hopen : squashfsOpenddir t startBlock offset =
      some (some (readBase stat type u g number, ents))) {parent : Bytes}
    {calls : List Call} {made made' : List (ℕ × Bytes)}
    (hfold : ents.foldlM (dirStep z t n parent) ([.mkdir parent (stat.mode % 2 ^ 12)], made) =
      some ([.mkdir parent (stat.mode % 2 ^ 12)] ++ calls, made')) :
    unsquashDir z t (n + 1) parent startBlock offset made =
      some (copyMade o parent stat calls, made') := by
  have hattributes := setAttributes_eq ht howner parent type number true
  rw [unsquashDir, hopen]
  simp only [Option.bind_eq_bind, Option.bind_some, hattributes]
  show (ents.foldlM (dirStep z t n parent) ([.mkdir parent (stat.mode % 2 ^ 12)], made)).bind _ = _
  rw [hfold]
  rfl

/-- The entries of a tree that was written give the calls that copy it. -/
theorem foldlM_dirStep {l : Laid} {t : Tables} (ht : Readable z o l t) {nodes : List Node}
    {dirInodeNo m : ℕ} (hcount : t.sBlk.inodes + 1 = dirInodeNo + nodes.length)
    (hnumbers : dirInodeNo + nodes.length < 2 ^ 32) (hpos : 0 < dirInodeNo)
    (hnodes : ∀ node ∈ nodes, node.contents.Fits) (hm : m < l.dirs.length) {es : Entries}
    {ents : List DirEnt} (h : TreeAt z o l nodes dirInodeNo m es ents) {n : ℕ}
    (hn : es.depth ≤ n) {parent : Bytes} (hpath : parent.length + es.pathLength < 1024)
    (calls : List Call) (seen : Seen) :
    (∀ e ∈ ents, e.startBlock < 2 ^ 32) ∧
      ents.foldlM (dirStep z t n parent) (calls, created dirInodeNo seen) =
        some (calls ++ (copyEntries o nodes parent es seen).1,
          created dirInodeNo (copyEntries o nodes parent es seen).2) := by
  induction h generalizing n parent calls seen with
  | nil =>
    refine ⟨fun e he => absurd he List.not_mem_nil, ?_⟩
    rw [copyEntries, List.append_nil]
    rfl
  | @file name k inode type node rest ents hk hnode _ ih =>
    have hread := hnode.read ht (hnodes node (List.mem_of_getElem? hk))
    obtain ⟨hstart, _, hfile, _, _⟩ := hread
    have hstep := unsquashInode_eq ht hcount hnumbers hpos hk
      (hnodes node (List.mem_of_getElem? hk)) hnode (below parent name) seen
    have hlen : parent.length + (name.length + 1) < 1024 ∧
        parent.length + rest.pathLength < 1024 := by
      have hlength : (Entries.file name k rest).pathLength =
        max (name.length + 1) rest.pathLength := rfl
      omega
    obtain ⟨hstarts, hrest⟩ := ih hn hlen.2
      (calls ++ (copyName o nodes (below parent name) k seen).1)
      (copyName o nodes (below parent name) k seen).2
    refine ⟨?_, ?_⟩
    · intro e he
      rcases List.mem_cons.mp he with he | he
      · rw [he]
        exact hstart
      · exact hstarts e he
    · rw [List.foldlM_cons, dirStep_eq t n _ (e := entOf inode name type) hlen.1]
      simp only [entOf, if_neg hfile, hstep, Option.bind_eq_bind, Option.bind_some]
      rw [hrest, copyEntries]
      simp only [List.append_assoc]
  | @dir name stat number p inode sub rest ents' ents hp hdir _ _ ihsub ih =>
    have hdepth : (Entries.dir name stat number sub rest).depth =
        max (sub.depth + 1) rest.depth := rfl
    have hlength : (Entries.dir name stat number sub rest).pathLength =
        max (name.length + 1 + sub.pathLength) rest.pathLength := rfl
    obtain ⟨m', rfl⟩ : ∃ m', n = m' + 1 := ⟨n - 1, by omega⟩
    have hbelow : (below parent name).length = parent.length + (name.length + 1) := by
      rw [below, List.length_append, List.length_cons]
    have hnsub : sub.depth ≤ m' := by omega
    have hnrest : rest.depth ≤ m' + 1 := by omega
    have hpsub : (below parent name).length + sub.pathLength < 1024 := by omega
    have hprest : parent.length + rest.pathLength < 1024 := by omega
    obtain ⟨hsubStarts, hsubRest⟩ :=
      ihsub hnsub hpsub [.mkdir (below parent name) (stat.mode % 2 ^ 12)] seen
    obtain ⟨type, u, g, howner, hopen⟩ :=
      squashfsOpenddir_eq ht hdir (Nat.lt_of_le_of_lt hp hm) hsubStarts
    have hmade := unsquashDir_eq ht howner hopen hsubRest
    obtain ⟨hstarts, hrest⟩ := ih hnrest hprest
      (calls ++ copyMade o (below parent name) stat
        (copyEntries o nodes (below parent name) sub seen).1)
      (copyEntries o nodes (below parent name) sub seen).2
    have hstart := hdir.startBlock_lt ht
    refine ⟨?_, ?_⟩
    · intro e he
      rcases List.mem_cons.mp he with he | he
      · rw [he]
        exact hstart
      · exact hstarts e he
    · have hlen : parent.length + (name.length + 1) < 1024 := by omega
      rw [List.foldlM_cons, dirStep_eq t (m' + 1) _ (e := entOf inode name dirType) hlen]
      simp only [entOf, if_true, hmade, Option.bind_eq_bind, Option.bind_some]
      rw [hrest, copyEntries]
      simp only [List.append_assoc]

end Squashfs
