import Backpack.Squashfs.Blocks
import Mathlib.Data.List.TakeWhile

/-!
# Directories come back

The bytes of a directory are headers, each with entries of up to 256 inodes whose blocks begin at
the same place. However `add_dir` starts new headers, `squashfs_openddir` reads the entries in the
order in which they were added.
-/

namespace Squashfs

open Framed (At)

/-! ## What the bytes of a directory say -/

/-- An entry whose members fit in their fields, and whose name is a string. -/
structure DirEnt.Fits (e : DirEnt) : Prop where
  ne_nil : e.name ≠ []
  length_le : e.name.length ≤ nameLen
  no_zero : 0 ∉ e.name
  offset_lt : e.offset < 2 ^ 13
  type_lt : e.type < 2 ^ 3

/-- The entries behind a header. -/
inductive Body (startBlock : ℕ) : List DirEnt → Bytes → Prop
  | nil : Body startBlock [] []
  | cons {e : DirEnt} {es : List DirEnt} {bs : Bytes} (delta : ℤ) (he : e.Fits)
      (hs : e.startBlock = startBlock) (h : Body startBlock es bs) :
      Body startBlock (e :: es)
        ((DirEntry.encode ⟨e.offset, e.type, e.name.length - 1, delta⟩ ++ e.name) ++ bs)

/-- A whole directory. -/
inductive Listing : List DirEnt → Bytes → Prop
  | nil : Listing [] []
  | cons {startBlock inodeNumber : ℕ} {es rest : List DirEnt} {body bs : Bytes} (hne : es ≠ [])
      (hl : es.length ≤ 256) (hb : Body startBlock es body) (h : Listing rest bs) :
      Listing (es ++ rest)
        (DirHeader.encode ⟨es.length - 1, startBlock, inodeNumber⟩ ++ body ++ bs)

/-- Entries under one header are written one after another. -/
theorem Body.append {s : ℕ} {es fs : List DirEnt} {bs cs : Bytes} (h : Body s es bs)
    (h' : Body s fs cs) : Body s (es ++ fs) (bs ++ cs) := by
  induction h with
  | nil => exact h'
  | cons delta he hs _ ih =>
    rw [List.append_assoc _ _ cs]
    exact .cons delta he hs ih

/-- Runs under their own headers make up one listing. -/
theorem Listing.append {es fs : List DirEnt} {bs cs : Bytes} (h : Listing es bs)
    (h' : Listing fs cs) : Listing (es ++ fs) (bs ++ cs) := by
  induction h with
  | nil => exact h'
  | cons hne hl hb _ ih =>
    rw [List.append_assoc, List.append_assoc _ _ cs]
    exact .cons hne hl hb ih

/-- What a directory that is still open lists. -/
def Directory.Lists (d : Directory) (ents : List DirEnt) : Prop :=
  match d.header with
  | none => ents = [] ∧ d.done = [] ∧ d.entryCount = 256
  | some h => ∃ es cur, ents = es ++ cur ∧ Listing es d.done ∧ cur ≠ [] ∧ cur.length ≤ 256 ∧
      Body h.1 cur d.body ∧ d.entryCount = cur.length

/-- A directory begins without entries. -/
theorem Directory.lists_init : Directory.init.Lists [] := ⟨rfl, rfl, rfl⟩

/-- What `add_dir` has put into its buffer lists the entries so far. -/
theorem Directory.Lists.listing {d : Directory} {ents : List DirEnt} (h : d.Lists ents) :
    Listing ents d.buff := by
  rw [Directory.Lists] at h
  rw [Directory.buff]
  cases hd : d.header with
  | none =>
    rw [hd] at h
    have ⟨hents, hbuff, _⟩ := h
    simp only [hents, hbuff]
    exact .nil
  | some hdr =>
    rw [hd] at h
    have ⟨es, cur, hents, hbefore, hcur, hcount, hbody, hbuff⟩ := h
    simp only [hents, hbuff]
    have hall := hbefore.append (@Listing.cons hdr.1 hdr.2 _ _ _ _ hcur hcount hbody .nil)
    rw [List.append_nil, List.append_nil, ← List.append_assoc] at hall
    exact hall

/-! ## `add_dir` -/

/-- The entry that `add_dir` makes. -/
def entOf (inode : ℕ) (name : Bytes) (type : ℕ) : DirEnt :=
  ⟨name, inode / 2 ^ 16, inode % 2 ^ 16, type⟩

/-- With or without a new header, the entry is the last one. -/
theorem Directory.Lists.addDir {d : Directory} {ents : List DirEnt} (h : d.Lists ents)
    {inode type : ℕ} {name : Bytes} (he : (entOf inode name type).Fits) (inodeNumber : ℕ) :
    (addDir inode inodeNumber name type d).Lists (ents ++ [entOf inode name type]) := by
  have hname : name.take nameLen = name := List.take_of_length_le he.length_le
  have hbody : ∀ delta : ℤ, Body (inode / 2 ^ 16) [entOf inode name type]
      (DirEntry.encode ⟨inode % 2 ^ 16, type, name.length - 1, delta⟩ ++ name) := fun delta => by
    have hone := @Body.cons (inode / 2 ^ 16) _ _ _ delta he rfl .nil
    rw [List.append_nil] at hone
    exact hone
  rw [Squashfs.addDir]
  simp only [hname]
  -- a new header: what was open is closed
  have hclosed : ∀ delta index indexCount, Directory.Lists ⟨d.buff,
      some (inode / 2 ^ 16, inodeNumber),
      [] ++ (DirEntry.encode ⟨inode % 2 ^ 16, type, name.length - 1, delta⟩ ++ name), 0 + 1, index,
      indexCount⟩ (ents ++ [entOf inode name type]) := fun delta _ _ =>
    ⟨ents, [entOf inode name type], rfl, h.listing, by simp, by simp, hbody delta, rfl⟩
  split_ifs with hnew hfar
  · exact hclosed _ _ _
  · exact hclosed _ _ _
  · rw [not_or, not_or] at hnew
    have ⟨hopen, hblock, _⟩ := hnew
    rw [Directory.Lists] at h ⊢
    cases hd : d.header with
    | none =>
      rw [hd] at h
      exact absurd h.2.2 hopen
    | some hdr =>
      rw [hd] at h hblock
      have ⟨es, cur, hents, hbefore, hcur, hcount, hopened, hbuff⟩ := h
      have hsame : hdr.1 = inode / 2 ^ 16 := not_not.mp hblock
      rw [hsame] at hopened
      simp only
      refine ⟨es, cur ++ [entOf inode name type], ?_, hbefore, by simp, ?_, ?_, ?_⟩
      · rw [hents, List.append_assoc]
      · rw [List.length_append, List.length_singleton]
        omega
      · rw [hsame]
        exact hopened.append (hbody _)
      · rw [List.length_append, List.length_singleton, hbuff]

/-- An entry takes at most a header and its name more. -/
theorem length_buff_addDir (d : Directory) (inode inodeNumber : ℕ) (name : Bytes) (type : ℕ) :
    (addDir inode inodeNumber name type d).buff.length ≤ d.buff.length + name.length + 5 + 9 := by
  have hname : (name.take nameLen).length ≤ name.length := List.length_take_le' _ _
  have hentry : ∀ e : DirEntry, e.encode.length = 5 := fun e => by
    rw [DirEntry.encode, Packed.length_encode]
    exact Packed.width_div (by simp)
  have hheader : ∀ h : DirHeader, h.encode.length = 9 := fun h => by
    rw [DirHeader.encode, Packed.length_encode]
    exact Packed.width_div (by simp)
  -- with a new header the buffer has it, and what was there before
  have hclosed : ∀ (h : ℕ × ℕ) (e : DirEntry) index indexCount, (Directory.buff ⟨d.buff, some h,
      [] ++ (e.encode ++ name.take nameLen), 0 + 1, index, indexCount⟩).length ≤
      d.buff.length + name.length + 5 + 9 := fun h e _ _ => by
    simp only [Directory.buff, List.length_append, hentry, hheader, List.length_nil]
    omega
  rw [addDir]
  split_ifs with hnew hfar
  · exact hclosed _ _ _ _
  · exact hclosed _ _ _ _
  · rw [Directory.buff, Directory.buff]
    simp only
    cases d.header with
    | none =>
      simp only
      omega
    | some hdr =>
      simp only [List.length_append, hentry, hheader]
      omega

/-! ## `squashfs_openddir` -/

/-- A name without a zero byte is read whole. -/
theorem cString_of_no_zero {bs : Bytes} (h : 0 ∉ bs) : cString bs = bs := by
  rw [cString, List.takeWhile_eq_self_iff]
  intro b hb
  exact decide_eq_true fun hzero => h (hzero ▸ hb)

/-- The reader's inner loop gives back the entries under one header. -/
theorem readDirEntries_eq {table bs : Bytes} {s p : ℕ} {es : List DirEnt} (h : Body s es bs)
    (hat : At table p bs) : readDirEntries table s es.length p = some (es, p + bs.length) := by
  induction h generalizing p with
  | nil => rfl
  | @cons e es bs delta he hs h ih =>
    have ⟨post, hhead⟩ := hat.left.left.drop
    have hlen : (DirEntry.encode ⟨e.offset, e.type, e.name.length - 1, delta⟩).length = 5 := by
      rw [DirEntry.encode, Packed.length_encode]
      exact Packed.width_div (by simp)
    have hpos : 0 < e.name.length := List.length_pos_of_ne_nil he.ne_nil
    have hsize : (e.name.length - 1) % 2 ^ 8 + 1 = e.name.length := by
      have hle := he.length_le
      have hmax : nameLen = 256 := rfl
      omega
    have hname := readBytes_of_at hat.left.right
    have hrest := ih hat.right
    rw [hlen] at hname
    rw [List.length_append, hlen, ← Nat.add_assoc] at hrest
    rw [List.length_cons, readDirEntries, hhead, DirEntry.decode_encode]
    simp only [Option.bind_eq_bind, Option.bind_some, hsize, hname, hrest]
    rw [Nat.mod_eq_of_lt he.offset_lt, Nat.mod_eq_of_lt he.type_lt, cString_of_no_zero he.no_zero,
      ← hs, List.length_append, List.length_append, hlen, ← Nat.add_assoc, ← Nat.add_assoc]

/-- The entries are read in their order. -/
theorem readDirHeaders_eq {table bs : Bytes} {p n : ℕ} {ents : List DirEnt} (h : Listing ents bs)
    (hlt : ∀ e ∈ ents, e.startBlock < 2 ^ 32) (hat : At table p bs) (hn : bs.length < n) :
    readDirHeaders table (p + bs.length) n p = some ents := by
  induction h generalizing p n with
  | nil =>
    cases n with
    | zero => omega
    | succ n => rw [readDirHeaders, if_neg (by simp)]
  | @cons s number es rest body bs hne hl hb h ih =>
    cases n with
    | zero => omega
    | succ n =>
      have hlen : (DirHeader.encode ⟨es.length - 1, s, number⟩).length = 9 := by
        rw [DirHeader.encode, Packed.length_encode]
        exact Packed.width_div (by simp)
      have hpos : 0 < es.length := List.length_pos_of_ne_nil hne
      have hs : s < 2 ^ 32 := by
        cases hb with
        | nil => exact absurd rfl hne
        | cons delta he hs h =>
          rw [← hs]
          exact hlt _ (by simp)
      obtain ⟨post, hhead⟩ := hat.left.left.drop
      have hents := readDirEntries_eq hb hat.left.right
      have hcount : (es.length - 1) % 2 ^ 8 + 1 = es.length := by omega
      have hrest := hat.right
      rw [List.length_append, hlen, ← Nat.add_assoc] at hrest
      have hread := ih (n := n) (fun e he => hlt e (List.mem_append_right _ he)) hrest
        (by rw [List.length_append, List.length_append, hlen] at hn; omega)
      have hplace : p + 9 + body.length + bs.length =
          p + (DirHeader.encode ⟨es.length - 1, s, number⟩ ++ body ++ bs).length := by
        rw [List.length_append, List.length_append, hlen]
        omega
      rw [hplace] at hread
      rw [hlen] at hents
      rw [readDirHeaders, if_pos (by omega), hhead, DirHeader.decode_encode]
      simp only [Option.bind_eq_bind, Option.bind_some, hcount, Nat.mod_eq_of_lt hs, hents, hread]

end Squashfs
