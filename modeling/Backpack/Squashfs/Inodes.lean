import Backpack.Squashfs.Files
import Mathlib.Data.List.Dedup

/-!
# The inodes of the files

Every step of `mksquashfs` keeps its variables in accord with what was written, and an inode that
is made says of its file what was found in the source directory.
-/

namespace Squashfs

open Framed (At place)

/-! ## What an image can hold -/

/-- `struct stat` of all directories at all depths. -/
def Entries.stats : Entries → List Stat
  | .nil => []
  | .file _ _ rest => rest.stats
  | .dir _ stat _ sub rest => stat :: (sub.stats ++ rest.stats)

/-- And of the files too. -/
def Scan.stats (sc : Scan) : List Stat :=
  sc.stat :: (sc.entries.stats ++ sc.nodes.map Node.stat)

/-- The owners that the image will list. -/
def Scan.owners (sc : Scan) (o : Options) : List ℕ := (sc.stats.map o.owner).dedup

/-- The groups: one that has the number of the owner is not listed. -/
def Scan.groups (sc : Scan) (o : Options) : List ℕ :=
  ((sc.stats.filter fun s => o.owner s ≠ o.group s).map o.group).dedup

/-- A regular file has this content. -/
def Scan.HasContent (sc : Scan) (content : Bytes) : Prop :=
  ∃ node ∈ sc.nodes, node.contents = .reg content

/-- A source directory that fits in an image. -/
structure Scan.Fits (z : Zlib) (o : Options) (sc : Scan) : Prop where
  -- the lengths of the two lists have 8 bits
  owners : (sc.owners o).length ≤ 255
  groups : (sc.groups o).length ≤ 255
  -- a place in a file is an `int`
  contents : ∀ content, sc.HasContent content → content.length < 2 ^ 31
  numbers : sc.dirInodeNo + sc.nodes.length < 2 ^ 32
  -- the bytes of a file say how they are cut into blocks: `duplicate` looks only at the bytes
  apart : o.duplicateChecking = true → ∀ c c', sc.HasContent c → sc.HasContent c' →
    (storedBlocks z o c).flatMap Prod.snd = (storedBlocks z o c').flatMap Prod.snd →
    fileEnd o c = fileEnd o c' →
    (storedBlocks z o c).map Prod.fst = (storedBlocks z o c').map Prod.fst

/-! ## The variables and what was written -/

variable (z : Zlib) (o : Options) (sc : Scan)

/-- A list of owners, each of which is there once. -/
def Listed (all ids : List ℕ) : Prop := ids.Nodup ∧ ids ⊆ all

/-- The variables of the program say what was written. -/
structure Rep (st : Mk) (l : Laid) : Prop where
  out : l.out = st.out
  data : DataRep z o st.out st.fragmentData st.fragmentTable l.frags
  inodes : ∃ k, st.inodes.Holds (frame z o) metadataSize l.inodes k
  dirs : st.directories.Holds (frame z o) metadataSize l.dirs (l.dirs.length / metadataSize)
  uids : l.uids = st.uids
  guids : l.guids = st.guids
  uids_listed : Listed (sc.owners o) st.uids
  guids_listed : Listed (sc.groups o) st.guids
  dupl : ∀ f ∈ st.dupl, ∃ content, sc.HasContent content ∧ KnownFile z o l f content
  infos : ∀ i ∈ st.infos, ∃ node, sc.nodes[i.1]? = some node ∧
    NodeAt z o l node (i.1 + sc.dirInodeNo) i.2.1 i.2.2

/-- One more inode was made. -/
structure Created (st : Mk) (l : Laid) (st' : Mk) (l' : Laid) : Prop where
  rep : Rep z o sc st' l'
  le : l.Le l'
  dirs : l'.dirs = l.dirs
  infos : st'.infos = st.infos
  inodeCount : st'.inodeCount = st.inodeCount + 1

variable {z o sc}

/-- Before the first file, only the room for the superblock is laid out. -/
theorem rep_init : Rep z o sc Mk.init ⟨List.replicate superSize 0, [], [], [], [], [[]]⟩ where
  out := rfl
  data := ⟨by rw [Mk.init, List.length_replicate], ⟨[], rfl, .nil⟩, Nat.zero_le _, by
    show 0 < 2 ^ 31
    decide⟩
  inodes := ⟨0, rfl, rfl, by simp⟩
  dirs := ⟨rfl, rfl, by simp⟩
  uids := rfl
  guids := rfl
  uids_listed := ⟨List.nodup_nil, List.nil_subset _⟩
  guids_listed := ⟨List.nodup_nil, List.nil_subset _⟩
  dupl := by simp [Mk.init]
  infos := by simp [Mk.init]

/-- What is known of files stays true. -/
theorem Rep.dupl_mono {st : Mk} {l l' : Laid} (h : Rep z o sc st l) (hl : l.Le l') :
    ∀ f ∈ st.dupl, ∃ content, sc.HasContent content ∧ KnownFile z o l' f content := by
  intro f hf
  have ⟨content, hcontent, hknown, hsum⟩ := h.dupl f hf
  exact ⟨content, hcontent, hknown.mono hl, hsum⟩

/-- What was noted of written files stays true as the layout grows. -/
theorem Rep.infos_mono {st : Mk} {l l' : Laid} (h : Rep z o sc st l) (hl : l.Le l') :
    ∀ i ∈ st.infos, ∃ node, sc.nodes[i.1]? = some node ∧
      NodeAt z o l' node (i.1 + sc.dirInodeNo) i.2.1 i.2.2 := by
  intro i hi
  have ⟨node, hnode, hat⟩ := h.infos i hi
  exact ⟨node, hnode, hat.mono hl⟩

/-! ## Owners -/

/-- No id is listed twice, so there are at most as many as there are owners. -/
theorem Listed.length_le {all ids : List ℕ} (h : Listed all ids) : ids.length ≤ all.length :=
  (List.subperm_of_subset h.1 h.2).length_le

/-- A new id joins the list. -/
theorem Listed.append {all ids : List ℕ} (h : Listed all ids) {id : ℕ} (hid : id ∉ ids)
    (hall : id ∈ all) : Listed all (ids ++ [id]) := by
  constructor
  · rw [List.nodup_append]
    refine ⟨h.1, List.nodup_singleton id, ?_⟩
    intro a ha b hb hab
    rw [List.mem_singleton.mp hb] at hab
    exact hid (hab ▸ ha)
  · apply List.append_subset.mpr
    refine ⟨h.2, ?_⟩
    intro a ha
    rw [List.mem_singleton.mp ha]
    exact hall

/-- `get_uid` gives an index at which the user id stands, adding it when it is new. -/
theorem getUid_spec {all : List ℕ} {uid : ℕ} {st : Mk} (h : Listed all st.uids) (hu : uid ∈ all)
    (hall : all.length ≤ 255) :
    ∃ i uids, getUid uid st = (i, { st with uids := uids }) ∧ Listed all uids ∧ st.uids <+: uids ∧
      uids[i]? = some uid := by
  unfold getUid
  by_cases hmem : uid ∈ st.uids
  · rw [if_pos hmem]
    exact ⟨_, st.uids, rfl, h, List.prefix_rfl, List.getElem?_idxOf hmem⟩
  · have hle := h.length_le
    have hmax : squashfsUids = 256 := rfl
    rw [if_neg hmem, if_neg (by omega)]
    exact ⟨_, st.uids ++ [uid], rfl, h.append hmem hu, List.prefix_append _ _,
      List.getElem?_concat_length⟩

/-- `get_guid` gives such an index too, or the mark for a group equal to the user. -/
theorem getGuid_spec {all : List ℕ} {uid guid : ℕ} {st : Mk} (h : Listed all st.guids)
    (hg : uid ≠ guid → guid ∈ all) (hall : all.length ≤ 255) :
    ∃ i guids, getGuid uid guid st = (i, { st with guids := guids }) ∧ Listed all guids ∧
      st.guids <+: guids ∧
        ((i = squashfsGuids ∧ uid = guid) ∨ guids[i]? = some guid) := by
  unfold getGuid
  by_cases heq : uid = guid
  · rw [if_pos heq]
    exact ⟨_, st.guids, rfl, h, List.prefix_rfl, .inl ⟨rfl, heq⟩⟩
  · rw [if_neg heq]
    by_cases hmem : guid ∈ st.guids
    · rw [if_pos hmem]
      exact ⟨_, st.guids, rfl, h, List.prefix_rfl, .inr (List.getElem?_idxOf hmem)⟩
    · have happ := h.append hmem (hg heq)
      have hle := happ.length_le
      rw [List.length_append, List.length_singleton] at hle
      have hmax : squashfsGuids = 255 := rfl
      rw [if_neg hmem, if_neg (by omega)]
      exact ⟨_, st.guids ++ [guid], rfl, happ, List.prefix_append _ _,
        .inr List.getElem?_concat_length⟩

/-! ## Making inodes -/

/-- `create_inode` lays out one inode, with its owner, after what was there. -/
theorem createInode_spec (hfits : sc.Fits z o) {st : Mk} {l : Laid} (h : Rep z o sc st l)
    {stat : Stat} (hs : stat ∈ sc.stats) (type number : ℕ) (record : BaseInodeHeader → Bytes) :
    ∃ l', Created z o sc st l (createInode z o stat type number record st).2 l' ∧
      InodeAt z o l' stat type number record (createInode z o stat type number record st).1 := by
  have howner : o.owner stat ∈ sc.owners o :=
    List.mem_dedup.mpr (List.mem_map_of_mem hs)
  have hgroup : o.owner stat ≠ o.group stat → o.group stat ∈ sc.groups o := by
    intro hne
    apply List.mem_dedup.mpr
    exact List.mem_map_of_mem (List.mem_filter.mpr ⟨hs, decide_eq_true hne⟩)
  have ⟨u, uids, hu, hulist, hule, huat⟩ := getUid_spec h.uids_listed howner hfits.owners
  have ⟨g, guids, hg, hglist, hgle, hgat⟩ :=
    @getGuid_spec (sc.groups o) _ _ { st with uids := uids } h.guids_listed hgroup hfits.groups
  have ⟨k, hk⟩ := h.inodes
  -- a full block leaves the cache before the record is put there
  have hcache : l.inodes.length ≤ k * metadataSize + st.inodes.cache.length := by
    rw [hk.cache, List.length_drop]
    omega
  have hflush := hk.flush (by decide) hcache
  have hplace := hflush.place_eq
  set s := st.inodes.flush (frame z o) metadataSize st.inodes.cache.length with hsdef
  set bytes := record ⟨type, stat.mode &&& 0xfff, u, g, stat.mtime, number⟩ with hbytes
  have heq : createInode z o stat type number record st =
      (s.table.length * 2 ^ 16 + s.cache.length, { st with
        inodes := ⟨s.table, s.cache ++ bytes⟩
        uids := uids
        guids := guids
        inodeCount := st.inodeCount + 1 }) := by
    have hu' : getUid (o.globalUid.getD stat.uid) st = (u, { st with uids := uids }) := hu
    have hg' : getGuid (o.globalUid.getD stat.uid) (o.globalGid.getD stat.gid)
        { st with uids := uids } = (g, { st with uids := uids, guids := guids }) := hg
    unfold createInode getInode
    simp only [hu', hg']
    rfl
  rw [heq]
  have hle : l.Le { l with inodes := l.inodes ++ bytes, uids := uids, guids := guids } := by
    refine ⟨List.prefix_rfl, List.prefix_append _ _, List.prefix_rfl, ?_, ?_, FragsLe.refl _⟩
    · rw [h.uids]
      exact hule
    · rw [h.guids]
      exact hgle
  refine ⟨{ l with inodes := l.inodes ++ bytes, uids := uids, guids := guids }, ?_, ?_⟩
  · refine ⟨⟨h.out, h.data, ⟨_, hflush.append bytes⟩, h.dirs, rfl, rfl, hulist, hglist,
      h.dupl_mono hle, h.infos_mono hle⟩, hle, rfl, rfl, rfl⟩
  · refine ⟨l.inodes.length, u, g, ⟨Framed.at_end _ _, huat, hgat⟩, ?_⟩
    rw [placeOf_grow z o (Nat.le_refl _) (List.prefix_append _ _), placeOf, hplace]

/-- A file has its inode laid out in the short form or the long one. -/
theorem createReg_spec (hfits : sc.Fits z o) {st : Mk} {l : Laid} (h : Rep z o sc st l)
    {node : Node} (hs : node.stat ∈ sc.stats) (size number start : ℕ) (blockList : List ℕ)
    (frag : Fragment) :
    ∃ l', Created z o sc st l (createReg z o node size number start blockList frag st).2 l' ∧
      RegAt z o l' node size number start blockList frag
        (createReg z o node size number start blockList frag st).1 := by
  unfold createReg RegAt
  simp only
  split_ifs
  · exact createInode_spec hfits h hs _ _ _
  · exact createInode_spec hfits h hs _ _ _

/-! ## Writing files -/

/-- More data, and no more inodes. -/
theorem Rep.withData {st : Mk} {l : Laid} (h : Rep z o sc st l) {out fragmentData : Bytes}
    {table : List FragmentEntry} {frags : List Bytes}
    (hdata : DataRep z o out fragmentData table frags) (hout : st.out <+: out)
    (hfrags : FragsLe l.frags frags) :
    Rep z o sc { st with out := out, fragmentData := fragmentData, fragmentTable := table }
      { l with out := out, frags := frags } ∧ l.Le { l with out := out, frags := frags } := by
  have hle : l.Le { l with out := out, frags := frags } :=
    ⟨by rw [h.out]; exact hout, List.prefix_rfl, List.prefix_rfl, List.prefix_rfl, List.prefix_rfl,
      hfrags⟩
  exact ⟨⟨rfl, hdata, h.inodes, h.dirs, h.uids, h.guids, h.uids_listed, h.guids_listed,
    h.dupl_mono hle, h.infos_mono hle⟩, hle⟩

theorem Created.of_le {st st₁ st' : Mk} {l l₁ l' : Laid} (h : Created z o sc st₁ l₁ st' l')
    (hle : l.Le l₁) (hdirs : l₁.dirs = l.dirs) (hinfos : st₁.infos = st.infos)
    (hcount : st₁.inodeCount = st.inodeCount) : Created z o sc st l st' l' :=
  ⟨h.rep, hle.trans h.le, h.dirs.trans hdirs, h.infos.trans hinfos, by rw [h.inodeCount, hcount]⟩

/-- `write_file` lays out the blocks of a file, its tail and its inode. -/
theorem writeFile_spec (hfits : sc.Fits z o) {st st' : Mk} {l : Laid} (h : Rep z o sc st l)
    {node : Node} (hn : node ∈ sc.nodes) {content : Bytes} (hc : node.contents = .reg content)
    {number inode : ℕ} (he : writeFile z o node content number st = some (inode, st')) :
    ∃ l' start blockList frag, Created z o sc st l st' l' ∧
      FileAt z o l' content start blockList frag ∧
      RegAt z o l' node content.length number start blockList frag inode := by
  have hs : node.stat ∈ sc.stats :=
    List.mem_cons_of_mem _ (List.mem_append_right _ (List.mem_map_of_mem hn))
  have hcontent : sc.HasContent content := ⟨node, hn, hc⟩
  unfold writeFile at he
  simp only at he
  set stored := storedBlocks z o content with hstored
  cases hfind : (if o.duplicateChecking then
      st.dupl.find? (sameFile z o st (stored.flatMap Prod.snd) (fileEnd o content)) else none) with
  | some f =>
    rw [hfind] at he
    have hdc : o.duplicateChecking = true := by
      by_contra hno
      rw [if_neg hno] at hfind
      simp at hfind
    rw [if_pos hdc] at hfind
    have hsame := List.find?_some hfind
    have ⟨content', hcontent', hknown⟩ := h.dupl f (List.mem_of_find?_eq_some hfind)
    have ⟨hdata, hend⟩ := sameFile_spec h.out h.data hknown hsame
    -- the other block list is the one of this file
    have hlist : f.blockList = stored.map Prod.fst := by
      rw [hknown.1.blockList_eq]
      exact hfits.apart hdc _ _ hcontent' hcontent hdata hend
    have hlen : f.blockList.length = stored.length := by rw [hlist, List.length_map]
    simp only at he
    rw [if_neg (by omega), ← hlen, List.take_length] at he
    have hfile : FileAt z o l content f.start f.blockList f.fragment := by
      have hold := hknown.1
      refine ⟨hold.superSize_le, hlist, ?_, ?_, ?_⟩
      · rw [← hstored, ← hdata]
        exact hold.data
      · rw [← hend]
        exact hold.size_eq
      · rw [← hend]
        exact hold.index
    have ⟨l', hcreated, hreg⟩ := createReg_spec hfits h hs content.length number f.start f.blockList
      f.fragment
    have heq := Option.some.inj he
    rw [heq] at hcreated hreg
    exact ⟨l', f.start, f.blockList, f.fragment, hcreated, hfile.mono hcreated.le, hreg⟩
  | none =>
    rw [hfind] at he
    simp only [Option.bind_eq_bind, Option.bind_eq_some_iff] at he
    have ⟨⟨frag, st₁⟩, hfill, hcreate⟩ := he
    have hdata := h.data.append (stored.flatMap Prod.snd)
    have hend := Nat.le_of_lt (length_fileEnd_lt (o := o) content)
    have ⟨out, fragmentData, table, frags, hst, hdata', hout', hfrags, hsize, hfrag⟩ :=
      @getAndFillFragment_spec z o { st with out := st.out ++ stored.flatMap Prod.snd } _ _ _ _
        hdata hend hfill
    have hout := (List.prefix_append st.out (stored.flatMap Prod.snd)).trans hout'
    have ⟨hrep, hle⟩ := h.withData hdata' hout hfrags
    have hfile : FileAt z o { l with out := out, frags := frags } content st.out.length
        (stored.map Prod.fst) frag :=
      ⟨h.data.superSize_le, rfl, (Framed.at_end st.out _).grow hout', hsize, hfrag⟩
    simp only [hst] at hcreate
    by_cases hdc : o.duplicateChecking = true
    · rw [if_pos hdc] at hcreate
      set info : FileInfo := ⟨(stored.flatMap Prod.snd).length,
        getChecksum (stored.flatMap Prod.snd), st.out.length, stored.map Prod.fst, frag,
        getChecksum (fileEnd o content)⟩ with hinfo
      have hrep' : Rep z o sc { st with
          out := out
          fragmentData := fragmentData
          fragmentTable := table
          dupl := info :: st.dupl } { l with out := out, frags := frags } := by
        refine ⟨rfl, hrep.data, hrep.inodes, hrep.dirs, hrep.uids, hrep.guids, hrep.uids_listed,
          hrep.guids_listed, ?_, hrep.infos⟩
        intro f hf
        rcases List.mem_cons.mp hf with hf | hf
        · rw [hf]
          exact ⟨content, hcontent, hfile, rfl⟩
        · exact hrep.dupl f hf
      have ⟨l', hcreated, hreg⟩ := createReg_spec hfits hrep' hs content.length number st.out.length
        (stored.map Prod.fst) frag
      have heq := Option.some.inj hcreate
      rw [heq] at hcreated hreg
      exact ⟨l', _, _, frag, hcreated.of_le hle rfl rfl rfl, hfile.mono hcreated.le, hreg⟩
    · rw [if_neg hdc] at hcreate
      have ⟨l', hcreated, hreg⟩ := createReg_spec hfits hrep hs content.length number st.out.length
        (stored.map Prod.fst) frag
      have heq := Option.some.inj hcreate
      rw [heq] at hcreated hreg
      exact ⟨l', _, _, frag, hcreated.of_le hle rfl rfl rfl, hfile.mono hcreated.le, hreg⟩

/-- The inode of every kind of node that is no directory is laid out. -/
theorem createFile_spec (hfits : sc.Fits z o) {st st' : Mk} {l : Laid} (h : Rep z o sc st l)
    {node : Node} (hn : node ∈ sc.nodes) {number inode type : ℕ}
    (he : createFile z o node number st = some (inode, type, st')) :
    ∃ l', Created z o sc st l st' l' ∧ NodeAt z o l' node number inode type := by
  have hs : node.stat ∈ sc.stats :=
    List.mem_cons_of_mem _ (List.mem_append_right _ (List.mem_map_of_mem hn))
  -- all but regular files
  have hother : ∀ t (record : BaseInodeHeader → Bytes),
      some ((createInode z o node.stat t number record st).1, t,
        (createInode z o node.stat t number record st).2) = some (inode, type, st') →
      ∃ l', Created z o sc st l st' l' ∧ type = t ∧
        InodeAt z o l' node.stat t number record inode := by
    intro t record heq
    have ⟨l', hcreated, hinode⟩ := createInode_spec hfits h hs t number record
    have hpair := Option.some.inj heq
    simp only [Prod.mk.injEq] at hpair
    rw [hpair.1] at hinode
    rw [hpair.2.2] at hcreated
    exact ⟨l', hcreated, hpair.2.1.symm, hinode⟩
  unfold createFile at he
  unfold NodeAt
  cases hc : node.contents with
  | reg content =>
    rw [hc] at he
    have ⟨⟨inode', st₁⟩, hwrite, hpair⟩ := Option.map_eq_some_iff.mp he
    simp only [Prod.mk.injEq] at hpair
    rw [hpair.1, hpair.2.2] at hwrite
    have ⟨l', start, blockList, frag, hcreated, hfile, hreg⟩ := writeFile_spec hfits h hn hc hwrite
    exact ⟨l', hcreated, hpair.2.1.symm, start, blockList, frag, hfile, hreg⟩
  | symlink target => rw [hc] at he; exact hother _ _ he
  | chrdev major minor => rw [hc] at he; exact hother _ _ he
  | blkdev major minor => rw [hc] at he; exact hother _ _ he
  | fifo => rw [hc] at he; exact hother _ _ he
  | socket => rw [hc] at he; exact hother _ _ he

end Squashfs
