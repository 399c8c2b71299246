import Backpack.Squashfs.Layout
import Mathlib.Data.List.Perm.Subperm

/-!
# The data of the files

A file is stored as its blocks and its end, or found to be stored already. Either way its content
is read again from the place, the sizes and the fragment that its inode is given.
-/

namespace Squashfs

open Framed (At)

variable (z : Zlib) (o : Options)

/-! ## Blocks -/

/-- `-b` lets block sizes from 4 KiB to 64 KiB through. -/
theorem blockSize_bounds : 2 ^ 12 ≤ o.blockSize ∧ o.blockSize ≤ 2 ^ 16 := by
  have h := o.log_bounds
  exact ⟨Nat.pow_le_pow_right (by decide) h.1, Nat.pow_le_pow_right (by decide) h.2⟩

theorem blockSize_pos : 0 < o.blockSize := Nat.two_pow_pos _

/-- What fits in a block is stored as one. -/
theorem mangled_block {b : Bytes} (hb : b ≠ []) (hl : b.length ≤ o.blockSize)
    (uncompressed : Bool) :
    Mangled z b compressedBitBlock (mangle z b uncompressed compressedBitBlock) := by
  have hsize := (blockSize_bounds o).2
  have hbits : (2 : ℕ) ^ 16 < 2 ^ compressedBitBlock := by decide
  exact mangled z hb (by omega) uncompressed

variable {o}

/-- A file whose tail goes into a fragment has one block less. -/
theorem blockCount_le (content : Bytes) :
    blockCount o content ≤ Framed.count o.blockSize content.length := by
  unfold blockCount
  split_ifs
  · have h := blockSize_pos o
    have hle : content.length ≤ content.length + o.blockSize - 1 := by omega
    exact Nat.div_le_div_right hle
  · exact Nat.le_refl _

/-- The blocks of a file, and its end, are all of it. -/
theorem blocks_append_fileEnd (content : Bytes) :
    (Framed.blocks o.blockSize (blockCount o content) content).flatten ++ fileEnd o content =
      content := by
  rw [Framed.flatten_blocks, fileEnd, blockCount]
  split_ifs
  · exact List.take_append_drop _ content
  · rw [List.append_nil]
    exact List.take_of_length_le (Framed.le_count_mul (blockSize_pos o) _)

/-- The tail of a file is what is left over after the full blocks. -/
theorem length_fileEnd (content : Bytes) : (fileEnd o content).length =
    if fragmented o content then content.length % o.blockSize else 0 := by
  unfold fileEnd blockCount
  split_ifs
  · have h := Nat.div_add_mod content.length o.blockSize
    rw [Nat.mul_comm] at h
    rw [List.length_drop]
    omega
  · rfl

/-- The tail is shorter than a block. -/
theorem length_fileEnd_lt (content : Bytes) : (fileEnd o content).length < o.blockSize := by
  rw [length_fileEnd]
  split_ifs
  · exact Nat.mod_lt _ (blockSize_pos o)
  · exact blockSize_pos o

/-- The number of blocks that `unsquashfs` expects, without an end. -/
theorem blockCount_of_no_end {content : Bytes} (h : fileEnd o content = []) :
    (content.length + o.blockSize - 1) / o.blockSize = blockCount o content := by
  have hend := length_fileEnd (o := o) content
  have hpos := blockSize_pos o
  rw [h, List.length_nil] at hend
  unfold blockCount
  by_cases hf : fragmented o content = true
  · rw [if_pos hf] at hend ⊢
    have hdiv := Nat.div_add_mod content.length o.blockSize
    rw [← hend, Nat.add_zero, Nat.mul_comm] at hdiv
    rw [Nat.div_eq_iff hpos]
    omega
  · rw [if_neg hf]
    rfl

/-- And with one. -/
theorem blockCount_of_end {content : Bytes} (h : fileEnd o content ≠ []) :
    content.length / o.blockSize = blockCount o content ∧
      content.length % o.blockSize = (fileEnd o content).length := by
  have hend := length_fileEnd (o := o) content
  by_cases hf : fragmented o content = true
  · rw [if_pos hf] at hend
    rw [blockCount, if_pos hf]
    exact ⟨rfl, hend.symm⟩
  · rw [if_neg hf] at hend
    exact absurd (List.length_eq_zero_iff.mp hend) h

variable {z}

/-- The blocks of a file are read back one after another. -/
theorem readDataBlocks_eq {image : Bytes} {start : ℕ} {bs : List Bytes}
    (hbs : ∀ b ∈ bs, b ≠ [] ∧ b.length ≤ o.blockSize)
    (h : At image start ((bs.map fun b => mangle z b o.noD compressedBitBlock).flatMap Prod.snd)) :
    readDataBlocks z image o.blockSize start
      ((bs.map fun b => mangle z b o.noD compressedBitBlock).map Prod.fst) = some bs.flatten := by
  induction bs generalizing start with
  | nil => rfl
  | cons b bs ih =>
    have ⟨hne, hle⟩ := hbs b List.mem_cons_self
    have hr := mangled_block z o hne hle o.noD
    rw [List.map_cons, List.flatMap_cons] at h
    have hfirst := readStored_of_at hr hle h.left
    have hrest := ih (fun c hc => hbs c (List.mem_cons_of_mem b hc)) h.right
    rw [List.map_cons, List.map_cons, readDataBlocks, hfirst, hr.size]
    simp only [Option.bind_eq_bind, Option.bind_some, hrest, List.flatten_cons]

/-! ## Blocks of file ends -/

variable (z o)

/-- A block of file ends in the image. -/
structure FragAt (out : Bytes) (e : FragmentEntry) (b : Bytes) : Prop where
  superSize_le : superSize ≤ e.startBlock
  ne_nil : b ≠ []
  length_le : b.length ≤ o.blockSize
  size_eq : e.size = (mangle z b o.noF compressedBitBlock).1
  data : At out e.startBlock (mangle z b o.noF compressedBitBlock).2

variable {z o}

/-- A fragment block stays where it was written. -/
theorem FragAt.mono {out out' : Bytes} {e : FragmentEntry} {b : Bytes} (h : FragAt z o out e b)
    (hout : out <+: out') : FragAt z o out' e b :=
  ⟨h.superSize_le, h.ne_nil, h.length_le, h.size_eq, h.data.grow hout⟩

/-- It is read as it was. -/
theorem FragAt.readStored {out : Bytes} {e : FragmentEntry} {b : Bytes} (h : FragAt z o out e b) :
    readStored z out o.blockSize e.startBlock e.size = some b := by
  rw [h.size_eq]
  exact readStored_of_at (mangled_block z o h.ne_nil h.length_le o.noF) h.length_le h.data

variable (z o)

/-- The image and its blocks of file ends, of which the last one is still open. -/
structure DataRep (out fragmentData : Bytes) (table : List FragmentEntry) (frags : List Bytes) :
    Prop where
  superSize_le : superSize ≤ out.length
  frags : ∃ closed, frags = closed ++ [fragmentData] ∧ List.Forall₂ (FragAt z o out) table closed
  fragmentData_le : fragmentData.length ≤ o.blockSize
  table_lt : table.length < 2 ^ 31

variable {z o}

/-- Writing data leaves the fragments as they are. -/
theorem DataRep.append {out fragmentData : Bytes} {table : List FragmentEntry} {frags : List Bytes}
    (h : DataRep z o out fragmentData table frags) (data : Bytes) :
    DataRep z o (out ++ data) fragmentData table frags where
  superSize_le := by
    have hle := h.superSize_le
    rw [List.length_append]
    omega
  frags := by
    have ⟨closed, hfrags, hclosed⟩ := h.frags
    exact ⟨closed, hfrags, hclosed.imp fun _ _ hat => hat.mono (List.prefix_append out data)⟩
  fragmentData_le := h.fragmentData_le
  table_lt := h.table_lt

/-- `write_fragment` closes the open fragment block and writes its entry down. -/
theorem writeFragment_spec {st st' : Mk} {frags : List Bytes}
    (h : DataRep z o st.out st.fragmentData st.fragmentTable frags)
    (he : writeFragment z o st = some st') :
    ∃ out table frags', st' = { st with out := out, fragmentData := [], fragmentTable := table } ∧
      DataRep z o out [] table frags' ∧ st.out <+: out ∧ FragsLe frags frags' := by
  have ⟨closed, hfrags, hclosed⟩ := h.frags
  unfold writeFragment at he
  by_cases hnil : st.fragmentData.length = 0
  · -- there is nothing to write
    rw [if_pos hnil] at he
    have hnil := List.length_eq_zero_iff.mp hnil
    have hst := Option.some.inj he
    refine ⟨st.out, st.fragmentTable, frags, ?_, ?_, List.prefix_rfl, FragsLe.refl _⟩
    · rw [← hst, ← hnil]
    · rw [hnil] at h
      exact h
  · rw [if_neg hnil] at he
    by_cases hlt : 2 ^ 31 ≤ st.fragmentTable.length + 1
    · rw [if_pos hlt] at he
      simp at he
    · rw [if_neg hlt] at he
      have hne : st.fragmentData ≠ [] := fun hzero => hnil (List.length_eq_zero_iff.mpr hzero)
      have hle := h.superSize_le
      set r := mangle z st.fragmentData o.noF compressedBitBlock with hr
      refine ⟨st.out ++ r.2, st.fragmentTable ++ [⟨st.out.length, r.1⟩],
        closed ++ [st.fragmentData] ++ [[]], (Option.some.inj he).symm, ?_,
        List.prefix_append _ _, ?_⟩
      · refine ⟨?_, ⟨closed ++ [st.fragmentData], rfl, ?_⟩, Nat.zero_le _, ?_⟩
        · rw [List.length_append]
          omega
        · apply List.rel_append
          · exact hclosed.imp fun _ _ hat => hat.mono (List.prefix_append _ _)
          · exact .cons ⟨hle, hne, h.fragmentData_le, rfl, Framed.at_end st.out r.2⟩ .nil
        · rw [List.length_append, List.length_singleton]
          omega
      · intro i b hb
        have hi := (List.getElem?_eq_some_iff.mp hb).1
        rw [hfrags] at hb hi
        refine ⟨b, ?_, List.prefix_rfl⟩
        rw [List.getElem?_append_left hi, hb]

/-- `get_and_fill_fragment` puts a tail into the open block, or into a new one when it does not
fit. -/
theorem getAndFillFragment_spec {st st' : Mk} {frags : List Bytes} {f : Fragment} {buff : Bytes}
    (h : DataRep z o st.out st.fragmentData st.fragmentTable frags)
    (hbuff : buff.length ≤ o.blockSize) (he : getAndFillFragment z o buff st = some (f, st')) :
    ∃ out fragmentData table frags',
      st' = { st with out := out, fragmentData := fragmentData, fragmentTable := table } ∧
      DataRep z o out fragmentData table frags' ∧ st.out <+: out ∧ FragsLe frags frags' ∧
      f.size = buff.length ∧ FragmentAt frags' f buff := by
  unfold getAndFillFragment at he
  by_cases hnil : buff.length = 0
  · rw [if_pos hnil] at he
    have hpair := Option.some.inj he
    have hf : f = emptyFragment := (congrArg Prod.fst hpair).symm
    have hst : st' = st := (congrArg Prod.snd hpair).symm
    refine ⟨st.out, st.fragmentData, st.fragmentTable, frags, hst, h, List.prefix_rfl,
      FragsLe.refl _, ?_, ?_⟩
    · rw [hf, hnil]
      rfl
    · rw [FragmentAt, if_pos (List.length_eq_zero_iff.mp hnil), hf]
      rfl
  · rw [if_neg hnil] at he
    simp only [Option.bind_eq_bind] at he
    -- with a new block, when the end does not fit in the open one
    have hopen : ∃ out fragmentData table frags₁,
        (⟨table.length, fragmentData.length, buff.length⟩,
          { st with
            out := out
            fragmentData := fragmentData ++ buff
            fragmentTable := table }) = (f, st') ∧
        DataRep z o out fragmentData table frags₁ ∧ st.out <+: out ∧ FragsLe frags frags₁ ∧
        fragmentData.length + buff.length ≤ o.blockSize := by
      by_cases hfull : o.blockSize < st.fragmentData.length + buff.length
      · rw [if_pos hfull] at he
        have ⟨st₁, hwrite, hfill⟩ := Option.bind_eq_some_iff.mp he
        have ⟨out, table, frags₁, hst, hdata, hgrow, hfrags⟩ := writeFragment_spec h hwrite
        rw [hst] at hfill
        exact ⟨out, [], table, frags₁, Option.some.inj hfill, hdata, hgrow, hfrags,
          by simpa using hbuff⟩
      · rw [if_neg hfull] at he
        exact ⟨st.out, st.fragmentData, st.fragmentTable, frags, Option.some.inj he, h,
          List.prefix_rfl, FragsLe.refl _, by omega⟩
    have ⟨out, fragmentData, table, frags₁, hpair, hdata, hgrow, hfrags, hroom⟩ := hopen
    have ⟨closed, hsplit, hclosed⟩ := hdata.frags
    have hlen := hclosed.length_eq
    have hf : f = ⟨table.length, fragmentData.length, buff.length⟩ := (congrArg Prod.fst hpair).symm
    refine ⟨out, fragmentData ++ buff, table, closed ++ [fragmentData ++ buff],
      (congrArg Prod.snd hpair).symm,
      ⟨hdata.superSize_le, ⟨closed, rfl, hclosed⟩, ?_, hdata.table_lt⟩, hgrow, hfrags.trans ?_,
      ?_, ?_⟩
    · rw [List.length_append]
      exact hroom
    · intro i b hb
      rw [hsplit] at hb
      by_cases hi : i < closed.length
      · rw [List.getElem?_append_left hi] at hb
        exact ⟨b, by rw [List.getElem?_append_left hi, hb], List.prefix_rfl⟩
      · have hi' : i = closed.length := by
          have hlt := (List.getElem?_eq_some_iff.mp hb).1
          rw [List.length_append, List.length_singleton] at hlt
          omega
        rw [hi', List.getElem?_concat_length] at hb
        refine ⟨fragmentData ++ buff, by rw [hi', List.getElem?_concat_length], ?_⟩
        rw [← Option.some.inj hb]
        exact List.prefix_append _ _
    · rw [hf]
    · have hne : buff ≠ [] := fun hzero => hnil (List.length_eq_zero_iff.mpr hzero)
      rw [FragmentAt, if_neg hne, hf]
      refine ⟨hdata.table_lt, fragmentData ++ buff, ?_, Framed.at_end _ _⟩
      rw [hlen, List.getElem?_concat_length]

/-! ## Files that are stored already -/

/-- A note of `add_file`: a file of which it is true. -/
def KnownFile (z : Zlib) (o : Options) (l : Laid) (f : FileInfo) (content : Bytes) : Prop :=
  FileAt z o l content f.start f.blockList f.fragment ∧
    f.bytes = ((storedBlocks z o content).flatMap Prod.snd).length

/-- What `duplicate` finds to be the same file has the same bytes, in the blocks and in the end;
it does not look at the sizes of the blocks. -/
theorem sameFile_spec {st : Mk} {l : Laid} {f : FileInfo} {content' data frag : Bytes}
    (hout : l.out = st.out) (h : DataRep z o st.out st.fragmentData st.fragmentTable l.frags)
    (hf : KnownFile z o l f content') (he : sameFile z o st data frag f = true) :
    (storedBlocks z o content').flatMap Prod.snd = data ∧ fileEnd o content' = frag := by
  have ⟨hat, hbytes⟩ := hf
  simp only [sameFile, Bool.and_eq_true, Bool.or_eq_true, decide_eq_true_eq] at he
  have ⟨⟨⟨⟨⟨_, hstart⟩, hsize'⟩, _⟩, hbytes'⟩, hfrag⟩ := he
  constructor
  · have hdata := hat.data.take_drop
    rw [hout, ← hbytes, hbytes'] at hdata
    exact hdata.symm
  · have hsize := hat.size_eq
    rcases hfrag with hfrag | hfrag
    · -- both have no end
      rw [← hsize', hfrag] at hsize
      rw [List.length_eq_zero_iff.mp hsize.symm, List.length_eq_zero_iff.mp hfrag]
    · have hindex := hat.index
      by_cases hend : fileEnd o content' = []
      · rw [hend, List.length_nil] at hsize
        rw [hsize] at hsize'
        rw [hend, List.length_eq_zero_iff.mp hsize']
      · rw [FragmentAt, if_neg hend] at hindex
        have ⟨hlt', b, hb, hat'⟩ := hindex
        have htail := hat'.take_drop
        rw [← hsize, ← hsize'] at htail
        have ⟨closed, hfrags, hclosed⟩ := h.frags
        have hlen := hclosed.length_eq
        have hinvalid : f.fragment.index ≠ invalidFrag := by
          have hbig : 2 ^ 31 < invalidFrag := by decide
          omega
        rw [hfrags] at hb
        by_cases hopen : f.fragment.index = st.fragmentTable.length
        · -- in the open block
          rw [if_pos (.inl hopen)] at hfrag
          rw [hopen, hlen, List.getElem?_concat_length] at hb
          rw [← Option.some.inj hb] at htail
          rw [← htail]
          exact of_decide_eq_true hfrag
        · rw [if_neg (by rw [not_or]; exact ⟨hopen, hinvalid⟩)] at hfrag
          have hlt : f.fragment.index < closed.length := by
            have hlt' := (List.getElem?_eq_some_iff.mp hb).1
            rw [List.length_append, List.length_singleton] at hlt'
            omega
          rw [List.getElem?_append_left hlt] at hb
          have ⟨e, he', hfragAt⟩ : ∃ e, st.fragmentTable[f.fragment.index]? = some e ∧
              FragAt z o st.out e b := by
            have hget := (List.forall₂_iff_get.mp hclosed).2 f.fragment.index (by omega) hlt
            have hget' := List.getElem?_eq_some_iff.mp hb
            refine ⟨_, List.getElem?_eq_getElem (by omega), ?_⟩
            rw [← hget'.2]
            exact hget
          rw [getFragment, he'] at hfrag
          simp only [Option.bind_eq_bind, Option.bind_some, hfragAt.readStored,
            Option.any_some] at hfrag
          rw [← htail]
          exact of_decide_eq_true hfrag

/-! ## Reading a file -/

/-- What `main` knows of the data of an image. -/
structure DataRead (z : Zlib) (o : Options) (l : Laid) (t : Tables) : Prop where
  blockSize : t.sBlk.blockSize = o.blockSize
  blockLog : t.sBlk.blockLog = o.blockLog
  -- behind the super block, the image is what was written
  data : ∀ p bs, superSize ≤ p → At l.out p bs → At t.image p bs
  frags : ∀ (i : ℕ) (b : Bytes), l.frags[i]? = some b → b ≠ [] →
    ∃ e, t.fragmentTable[i]? = some e ∧ FragAt z o t.image e b

/-- Blocks and tail together give the content of the file. -/
theorem fileContent_eq {l : Laid} {t : Tables} (ht : DataRead z o l t) {content : Bytes}
    {start : ℕ} {blockList : List ℕ} {frag : Fragment}
    (h : FileAt z o l content start blockList frag) :
    fileContent z t frag.index (fileEnd o content).length frag.offset start blockList =
      some content := by
  have hblocks : ∀ b ∈ Framed.blocks o.blockSize (blockCount o content) content,
      b ≠ [] ∧ b.length ≤ o.blockSize :=
    fun b hb => Framed.mem_blocks (blockSize_pos o) (blockCount_le content) hb
  have hdata := readDataBlocks_eq hblocks (ht.data start _ h.superSize_le h.data)
  have hwhole := blocks_append_fileEnd (o := o) content
  have hindex := h.index
  rw [fileContent, ht.blockSize, h.blockList_eq]
  rw [storedBlocks, hdata]
  simp only [Option.bind_eq_bind, Option.bind_some]
  by_cases hend : fileEnd o content = []
  · rw [hend, List.append_nil] at hwhole
    rw [hend, List.length_nil, if_pos rfl, hwhole]
  · rw [FragmentAt, if_neg hend] at hindex
    have ⟨_, b, hb, hat⟩ := hindex
    have hlen : (fileEnd o content).length ≠ 0 := fun hzero =>
      hend (List.length_eq_zero_iff.mp hzero)
    have hne : b ≠ [] := by
      have hle := hat.le
      intro hnil
      rw [hnil, List.length_nil] at hle
      omega
    have ⟨e, he, hfragAt⟩ := ht.frags _ b hb hne
    have hle := hat.le
    rw [if_neg hlen, he]
    simp only [Option.bind_some, hfragAt.readStored]
    rw [if_neg (by omega), hat.take_drop, hwhole]

end Squashfs
