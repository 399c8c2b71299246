import Backpack.Squashfs.Copy
import Backpack.Squashfs.Directories

/-!
# What lies where

While `mksquashfs` runs, what it wrote stays: the image and the two streams of metadata only grow,
and so do the lists of owners and every block of file ends. What an inode says is said of these,
so it is still true when the image is finished.
-/

namespace Squashfs

open Framed (At place)

/-! ## The image so far -/

/-- What was written: the data of the image, the inodes and the directories before they are cut
into blocks, the owners, and the blocks of file ends, of which the last one is still open. -/
structure Laid where
  out : Bytes
  inodes : Bytes
  dirs : Bytes
  uids : List ℕ
  guids : List ℕ
  frags : List Bytes

/-- Every block of file ends is still there, and may have grown. -/
def FragsLe (frags frags' : List Bytes) : Prop :=
  ∀ (i : ℕ) (b : Bytes), frags[i]? = some b → ∃ b', frags'[i]? = some b' ∧ b <+: b'

theorem FragsLe.refl (frags : List Bytes) : FragsLe frags frags :=
  fun _ b h => ⟨b, h, List.prefix_rfl⟩

/-- Fragment buffers only grow. -/
theorem FragsLe.trans {f₁ f₂ f₃ : List Bytes} (h : FragsLe f₁ f₂) (h' : FragsLe f₂ f₃) :
    FragsLe f₁ f₃ := by
  intro i b hb
  have ⟨b', hb', hgrow⟩ := h i b hb
  have ⟨b'', hb'', hgrow'⟩ := h' i b' hb'
  exact ⟨b'', hb'', hgrow.trans hgrow'⟩

/-- Nothing was taken back. -/
structure Laid.Le (l l' : Laid) : Prop where
  out : l.out <+: l'.out
  inodes : l.inodes <+: l'.inodes
  dirs : l.dirs <+: l'.dirs
  uids : l.uids <+: l'.uids
  guids : l.guids <+: l'.guids
  frags : FragsLe l.frags l'.frags

theorem Laid.le_refl (l : Laid) : l.Le l :=
  ⟨List.prefix_rfl, List.prefix_rfl, List.prefix_rfl, List.prefix_rfl, List.prefix_rfl,
    FragsLe.refl _⟩

/-- What is laid out only grows. -/
theorem Laid.Le.trans {l₁ l₂ l₃ : Laid} (h : l₁.Le l₂) (h' : l₂.Le l₃) : l₁.Le l₃ where
  out := h.out.trans h'.out
  inodes := h.inodes.trans h'.inodes
  dirs := h.dirs.trans h'.dirs
  uids := h.uids.trans h'.uids
  guids := h.guids.trans h'.guids
  frags := h.frags.trans h'.frags

/-! ## Inodes and files -/

variable (z : Zlib) (o : Options)

/-- The blocks of metadata as they are written. -/
abbrev frame : Bytes → Bytes := metaBlock z o.checkData o.noI

/-- The place in a stream of metadata, in the two parts that inodes and directories give. -/
def placeOf (stream : Bytes) (p : ℕ) : ℕ :=
  (place (frame z o) metadataSize stream p).1 * 2 ^ 16 + (place (frame z o) metadataSize stream p).2

/-- A place in a stream does not move when the stream grows. -/
theorem placeOf_grow {s s' : Bytes} {p : ℕ} (hp : p ≤ s.length) (h : s <+: s') :
    placeOf z o s' p = placeOf z o s p := by
  have ⟨u, hu⟩ := h
  rw [← hu, placeOf, placeOf, Framed.place_append hp]

/-- The upper part of a place is where its metadata block starts. -/
theorem placeOf_div (stream : Bytes) (p : ℕ) :
    placeOf z o stream p / 2 ^ 16 = (place (frame z o) metadataSize stream p).1 := by
  have hlt : p % metadataSize < metadataSize := Nat.mod_lt _ (by decide)
  have hsize : metadataSize < 2 ^ 16 := by decide
  have hoffset : (place (frame z o) metadataSize stream p).2 = p % metadataSize := rfl
  rw [placeOf, hoffset]
  omega

/-- The lower part of a place is the offset in its metadata block. -/
theorem placeOf_mod (stream : Bytes) (p : ℕ) :
    placeOf z o stream p % 2 ^ 16 = p % metadataSize := by
  have hlt : p % metadataSize < metadataSize := Nat.mod_lt _ (by decide)
  have hsize : metadataSize < 2 ^ 16 := by decide
  have hoffset : (place (frame z o) metadataSize stream p).2 = p % metadataSize := rfl
  rw [placeOf, hoffset]
  omega

/-- The places of an owner and a group in the lists: the group may be the owner's. -/
structure OwnerAt (l : Laid) (stat : Stat) (u g : ℕ) : Prop where
  uid : l.uids[u]? = some (o.owner stat)
  guid : (g = squashfsGuids ∧ o.owner stat = o.group stat) ∨ l.guids[g]? = some (o.group stat)

/-- The inode at a place, whose bytes come from its base header. -/
structure RecordAt (l : Laid) (stat : Stat) (type number : ℕ) (record : BaseInodeHeader → Bytes)
    (p : ℕ) (u g : ℕ) : Prop where
  at_inodes : At l.inodes p (record ⟨type, stat.mode &&& 0xfff, u, g, stat.mtime, number⟩)
  owner : OwnerAt o l stat u g

/-- An inode that `create_inode` made. -/
def InodeAt (l : Laid) (stat : Stat) (type number : ℕ) (record : BaseInodeHeader → Bytes)
    (inode : ℕ) : Prop :=
  ∃ p u g, RecordAt o l stat type number record p u g ∧ inode = placeOf z o l.inodes p

/-- The end of a file is in a block of file ends. -/
def FragmentAt (frags : List Bytes) (f : Fragment) (buff : Bytes) : Prop :=
  if buff = [] then f.index = invalidFrag else
    f.index < 2 ^ 31 ∧ ∃ b, frags[f.index]? = some b ∧ At b f.offset buff

/-- The content of a file can be put together from its blocks and its end. -/
structure FileAt (l : Laid) (content : Bytes) (start : ℕ) (blockList : List ℕ) (frag : Fragment) :
    Prop where
  superSize_le : superSize ≤ start
  blockList_eq : blockList = (storedBlocks z o content).map Prod.fst
  data : At l.out start ((storedBlocks z o content).flatMap Prod.snd)
  size_eq : frag.size = (fileEnd o content).length
  index : FragmentAt l.frags frag (fileEnd o content)

/-- The inode of a regular file. -/
def RegAt (l : Laid) (node : Node) (size number start : ℕ) (blockList : List ℕ) (frag : Fragment)
    (inode : ℕ) : Prop :=
  let h : RegInodeHeader := ⟨start, frag.index, frag.offset, size⟩
  let list := blockList.flatMap (Packed.toBytes 4)
  if node.nlink = 1 ∧ size < 2 ^ 30 - 1 then
    InodeAt z o l node.stat fileType number (fun b => h.encode b ++ list) inode
  else InodeAt z o l node.stat lregType number (fun b => h.encodeL b node.nlink ++ list) inode

/-- The inode of a file, with the type that its names have. -/
def NodeAt (l : Laid) (node : Node) (number inode type : ℕ) : Prop :=
  match node.contents with
  | .reg content => type = fileType ∧ ∃ start blockList frag,
      FileAt z o l content start blockList frag ∧
      RegAt z o l node content.length number start blockList frag inode
  | .symlink target => type = symlinkType ∧ InodeAt z o l node.stat symlinkType number
      (fun b => encodeShort b node.nlink target.length ++ target) inode
  | .chrdev major minor => type = chrdevType ∧ InodeAt z o l node.stat chrdevType number
      (fun b => encodeShort b node.nlink (major * 2 ^ 8 + minor % 2 ^ 8)) inode
  | .blkdev major minor => type = blkdevType ∧ InodeAt z o l node.stat blkdevType number
      (fun b => encodeShort b node.nlink (major * 2 ^ 8 + minor % 2 ^ 8)) inode
  | .fifo => type = fifoType ∧ InodeAt z o l node.stat fifoType number
      (fun b => encodeIpc b node.nlink) inode
  | .socket => type = socketType ∧ InodeAt z o l node.stat socketType number
      (fun b => encodeIpc b node.nlink) inode

/-- An id keeps its index when ids are added. -/
theorem getElem?_grow {s t : List ℕ} (h : s <+: t) {i v : ℕ} (hi : s[i]? = some v) :
    t[i]? = some v := by
  have ⟨u, hu⟩ := h
  have hlt := (List.getElem?_eq_some_iff.mp hi).1
  rw [← hu, List.getElem?_append_left hlt, hi]

variable {o}

/-- An owner stays in the tables. -/
theorem OwnerAt.mono {l l' : Laid} {stat : Stat} {u g : ℕ} (h : OwnerAt o l stat u g)
    (hl : l.Le l') : OwnerAt o l' stat u g where
  uid := getElem?_grow hl.uids h.uid
  guid := h.guid.imp id (getElem?_grow hl.guids)

variable {z}

/-- An inode stays where it was written. -/
theorem InodeAt.mono {l l' : Laid} {stat : Stat} {type number : ℕ}
    {record : BaseInodeHeader → Bytes} {inode : ℕ} (h : InodeAt z o l stat type number record inode)
    (hl : l.Le l') : InodeAt z o l' stat type number record inode := by
  have ⟨p, u, g, hrecord, hinode⟩ := h
  have hle := hrecord.at_inodes.le
  refine ⟨p, u, g, ⟨hrecord.at_inodes.grow hl.inodes, hrecord.owner.mono hl⟩, ?_⟩
  rw [hinode, placeOf_grow z o (by omega) hl.inodes]

/-- A file's tail stays in its fragment buffer. -/
theorem FragmentAt.mono {frags frags' : List Bytes} {f : Fragment} {buff : Bytes}
    (h : FragmentAt frags f buff) (hl : FragsLe frags frags') : FragmentAt frags' f buff := by
  unfold FragmentAt at h ⊢
  by_cases hnil : buff = []
  · rw [if_pos hnil] at h ⊢
    exact h
  · rw [if_neg hnil] at h ⊢
    have ⟨hindex, b, hb, hat⟩ := h
    have ⟨b', hb', hgrow⟩ := hl _ b hb
    exact ⟨hindex, b', hb', hat.grow hgrow⟩

/-- A file's blocks stay where they were written. -/
theorem FileAt.mono {l l' : Laid} {content : Bytes} {start : ℕ} {blockList : List ℕ}
    {frag : Fragment} (h : FileAt z o l content start blockList frag) (hl : l.Le l') :
    FileAt z o l' content start blockList frag where
  superSize_le := h.superSize_le
  blockList_eq := h.blockList_eq
  data := h.data.grow hl.out
  size_eq := h.size_eq
  index := h.index.mono hl.frags

theorem RegAt.mono {l l' : Laid} {node : Node} {size number start : ℕ} {blockList : List ℕ}
    {frag : Fragment} {inode : ℕ} (h : RegAt z o l node size number start blockList frag inode)
    (hl : l.Le l') : RegAt z o l' node size number start blockList frag inode := by
  unfold RegAt at h ⊢
  simp only at h ⊢
  split_ifs at h ⊢
  · exact h.mono hl
  · exact h.mono hl

/-- What is laid out for a node stays when more is written. -/
theorem NodeAt.mono {l l' : Laid} {node : Node} {number inode type : ℕ}
    (h : NodeAt z o l node number inode type) (hl : l.Le l') :
    NodeAt z o l' node number inode type := by
  unfold NodeAt at h ⊢
  cases hc : node.contents with
  | reg content =>
    rw [hc] at h
    have ⟨htype, start, blockList, frag, hfile, hreg⟩ := h
    exact ⟨htype, start, blockList, frag, hfile.mono hl, hreg.mono hl⟩
  | symlink target => rw [hc] at h; exact ⟨h.1, h.2.mono hl⟩
  | chrdev major minor => rw [hc] at h; exact ⟨h.1, h.2.mono hl⟩
  | blkdev major minor => rw [hc] at h; exact ⟨h.1, h.2.mono hl⟩
  | fifo => rw [hc] at h; exact ⟨h.1, h.2.mono hl⟩
  | socket => rw [hc] at h; exact ⟨h.1, h.2.mono hl⟩

/-! ## Directories -/

variable (z o)

/-- A directory whose bytes begin at `p` among the directories, and its inode. -/
def DirAt (l : Laid) (es : Entries) (stat : Stat) (number p : ℕ) (ents : List DirEnt)
    (inode : ℕ) : Prop :=
  ∃ bs, Listing ents bs ∧ At l.dirs p bs ∧ ∃ h : DirInodeHeader,
    h.fileSize = bs.length + 3 ∧ h.startBlock = (place (frame z o) metadataSize l.dirs p).1 ∧
      h.offset = p % metadataSize ∧
      if es.isLdir then h.fileSize < 2 ^ 27 ∧ ∃ n index, InodeAt z o l stat ldirType number
          (fun b => h.encodeL b n ++ index) inode
      else h.fileSize < 2 ^ 19 ∧ InodeAt z o l stat dirType number (fun b => h.encode b) inode

/-- The entries of a directory, with all that is below them. No directory below begins behind
`m`. -/
inductive TreeAt (l : Laid) (nodes : List Node) (dirInodeNo m : ℕ) : Entries → List DirEnt → Prop
  | nil : TreeAt l nodes dirInodeNo m .nil []
  | file {name : Bytes} {k inode type : ℕ} {node : Node} {rest : Entries} {ents : List DirEnt}
      (hk : nodes[k]? = some node) (hn : NodeAt z o l node (k + dirInodeNo) inode type)
      (h : TreeAt l nodes dirInodeNo m rest ents) :
      TreeAt l nodes dirInodeNo m (.file name k rest) (entOf inode name type :: ents)
  | dir {name : Bytes} {stat : Stat} {number p inode : ℕ} {sub rest : Entries}
      {ents' ents : List DirEnt} (hp : p ≤ m) (hd : DirAt z o l sub stat number p ents' inode)
      (hsub : TreeAt l nodes dirInodeNo m sub ents') (h : TreeAt l nodes dirInodeNo m rest ents) :
      TreeAt l nodes dirInodeNo m (.dir name stat number sub rest)
        (entOf inode name dirType :: ents)

variable {z o}

/-- A directory's listing stays when more is written. -/
theorem DirAt.mono {l l' : Laid} {es : Entries} {stat : Stat} {number p : ℕ} {ents : List DirEnt}
    {inode : ℕ} (hd : DirAt z o l es stat number p ents inode) (hl : l.Le l') :
    DirAt z o l' es stat number p ents inode := by
  have ⟨bs, hbody, hat, h, howner, hstart, hsize, hinode⟩ := hd
  have hle := hat.le
  have hplace : place (frame z o) metadataSize l'.dirs p =
      place (frame z o) metadataSize l.dirs p := by
    have ⟨u, hu⟩ := hl.dirs
    rw [← hu, Framed.place_append (by omega)]
  refine ⟨bs, hbody, hat.grow hl.dirs, h, howner, by rw [hplace]; exact hstart, hsize, ?_⟩
  by_cases hldir : es.isLdir = true
  · rw [if_pos hldir] at hinode ⊢
    have ⟨htype, n, index, hrec⟩ := hinode
    exact ⟨htype, n, index, hrec.mono hl⟩
  · rw [if_neg hldir] at hinode ⊢
    exact ⟨hinode.1, hinode.2.mono hl⟩

/-- A tree that is laid out stays when more is written and more numbers are given. -/
theorem TreeAt.mono {l l' : Laid} {nodes : List Node} {dirInodeNo m m' : ℕ} {es : Entries}
    {ents : List DirEnt} (h : TreeAt z o l nodes dirInodeNo m es ents) (hl : l.Le l')
    (hm : m ≤ m') : TreeAt z o l' nodes dirInodeNo m' es ents := by
  induction h with
  | nil => exact .nil
  | file hk hn _ ih => exact .file hk (hn.mono hl) ih
  | dir hp hd _ _ ihsub ih => exact .dir (Nat.le_trans hp hm) (hd.mono hl) ihsub ih

end Squashfs
